import RowSearch.Proofs.Level
import RowSearch.Proofs.Measure
/-!
# The limits of a tree

The two limits are exact. A finished term carries its height along, and the levels count the roots
that may still be entered; both are shown to be what is measured on the finished tree. A limit is then
in the way of a query only if the tree without it goes beyond it, and what it does to a query is to
reject it, with an error that names the limit.

There are two halves. A tree that was built under wide limits and fits into narrow ones is built under
these as well: folding only puts nodes on top of its terms, so everything inside of a tree that fits
does fit. And a computation under a narrow limit is `Capped` by the one under a wide limit: it goes the
same way up to the point where the limit ends it.
-/

namespace RowSearch.Query

/-! ### Terms under a fold -/

/-- What holds of a term holds of the terms that are made from it by the operators. -/
structure Composes (P : Built → Prop) : Prop where
  not : ∀ x : Built, P x → P ⟨.not x.node, x.height + 1⟩
  logic : ∀ (op : LogicOp) (x y : Built), P x → P y →
    P ⟨.logic op x.node y.node, max x.height y.height + 1⟩

/-- What holds of the operands of `NOT`, and of the right operands of the connectives, makes another
property hold of the terms that are left of a sequence. -/
structure Assembles (P Q : Built → Prop) : Prop where
  not : ∀ x : Built, P x → P ⟨.not x.node, x.height + 1⟩
  term : ∀ x : Built, P x → Q x
  logic : ∀ (op : LogicOp) (x y : Built), Q x → P y →
    Q ⟨.logic op x.node y.node, max x.height y.height + 1⟩

/-- What holds of a term made by an operator holds of its operands. -/
structure Hereditary (P : Built → Prop) : Prop where
  not : ∀ x : Built, P ⟨.not x.node, x.height + 1⟩ → P x
  logic : ∀ (op : LogicOp) (x y : Built),
    P ⟨.logic op x.node y.node, max x.height y.height + 1⟩ → P x ∧ P y

def Link.Has (P : Built → Prop) : Link → Prop
  | .logic _ => True
  | .term built => P built

def Pending.Has (P : Built → Prop) : Pending → Prop
  | .not => True
  | .link item => item.Has P

section Fold

variable {P Q : Built → Prop} {limit : Nat} {items : List Pending} {done terms : List Built}
  {links : List Link}

theorem Assembles.foldsNots (hP : Assembles P Q) (h : FoldsNots limit items links)
    (hitems : ∀ item ∈ items, item.Has P) : ∀ link ∈ links, link.Has P := by
  induction h with
  | nil => simp
  | link link _ ih =>
    obtain ⟨hlink, hrest⟩ := List.forall_mem_cons.mp hitems
    exact List.forall_mem_cons.mpr ⟨hlink, ih hrest⟩
  | not _ hbuilt ih =>
    obtain ⟨rfl, -⟩ := Built.within_eq_ok.mp hbuilt
    obtain ⟨-, hrest⟩ := List.forall_mem_cons.mp hitems
    obtain ⟨hoperand, htail⟩ := List.forall_mem_cons.mp (ih hrest)
    exact List.forall_mem_cons.mpr ⟨hP.not _ hoperand, htail⟩

theorem Assembles.foldsLinks (hP : Assembles P Q) (h : FoldsLinks limit done links terms)
    (hdone : ∀ term ∈ done, Q term) (hlinks : ∀ link ∈ links, link.Has P) :
    ∀ term ∈ terms, Q term := by
  induction h with
  | nil done =>
    intro term hterm
    exact hdone term (List.mem_reverse.mp hterm)
  | term _ ih =>
    obtain ⟨hterm, hrest⟩ := List.forall_mem_cons.mp hlinks
    exact ih (List.forall_mem_cons.mpr ⟨hP.term _ hterm, hdone⟩) hrest
  | logic hbuilt _ ih =>
    obtain ⟨rfl, -⟩ := Built.within_eq_ok.mp hbuilt
    obtain ⟨hleft, hrest⟩ := List.forall_mem_cons.mp hdone
    obtain ⟨-, hlinks⟩ := List.forall_mem_cons.mp hlinks
    obtain ⟨hright, hlinks⟩ := List.forall_mem_cons.mp hlinks
    apply ih _ hlinks
    exact List.forall_mem_cons.mpr ⟨hP.logic _ _ _ hleft hright, hrest⟩

/-- What is left of a sequence has the property that its items make hold. -/
theorem Assembles.fold (hP : Assembles P Q) (h : fold limit items = .ok terms)
    (hitems : ∀ item ∈ items, item.Has P) : ∀ term ∈ terms, Q term := by
  obtain ⟨-, links, hlinks, hterms⟩ := fold_eq_ok.mp h
  exact hP.foldsLinks hterms (by simp) (hP.foldsNots hlinks hitems)

theorem Composes.assembles (hP : Composes P) : Assembles P P where
  not := hP.not
  term _ := id
  logic := hP.logic

/-- What the operators keep is kept by folding. -/
theorem Composes.fold (hP : Composes P) (h : fold limit items = .ok terms)
    (hitems : ∀ item ∈ items, item.Has P) : ∀ term ∈ terms, P term :=
  hP.assembles.fold h hitems

theorem Hereditary.foldsNots (hP : Hereditary P) (h : FoldsNots limit items links)
    (hlinks : ∀ link ∈ links, link.Has P) : ∀ item ∈ items, item.Has P := by
  induction h with
  | nil => simp
  | link link _ ih =>
    obtain ⟨hlink, htail⟩ := List.forall_mem_cons.mp hlinks
    exact List.forall_mem_cons.mpr ⟨hlink, ih htail⟩
  | not _ hbuilt ih =>
    obtain ⟨rfl, -⟩ := Built.within_eq_ok.mp hbuilt
    obtain ⟨hnot, htail⟩ := List.forall_mem_cons.mp hlinks
    exact List.forall_mem_cons.mpr
      ⟨trivial, ih (List.forall_mem_cons.mpr ⟨hP.not _ hnot, htail⟩)⟩

theorem Hereditary.foldsLinks (hP : Hereditary P) (h : FoldsLinks limit done links terms)
    (hterms : ∀ term ∈ terms, P term) : (∀ term ∈ done, P term) ∧ ∀ link ∈ links, link.Has P := by
  induction h with
  | nil done =>
    refine ⟨fun term hterm => ?_, by simp⟩
    exact hterms term (List.mem_reverse.mpr hterm)
  | term _ ih =>
    obtain ⟨hdone, hrest⟩ := ih hterms
    obtain ⟨hterm, hdone⟩ := List.forall_mem_cons.mp hdone
    exact ⟨hdone, List.forall_mem_cons.mpr ⟨hterm, hrest⟩⟩
  | logic hbuilt _ ih =>
    obtain ⟨rfl, -⟩ := Built.within_eq_ok.mp hbuilt
    obtain ⟨hdone, hrest⟩ := ih hterms
    obtain ⟨hlogic, hdone⟩ := List.forall_mem_cons.mp hdone
    obtain ⟨hleft, hright⟩ := hP.logic _ _ _ hlogic
    refine ⟨List.forall_mem_cons.mpr ⟨hleft, hdone⟩, ?_⟩
    exact List.forall_mem_cons.mpr ⟨trivial, List.forall_mem_cons.mpr ⟨hright, hrest⟩⟩

/-- What every operand inherits holds of all terms that were folded. -/
theorem Hereditary.fold (hP : Hereditary P) (h : fold limit items = .ok terms)
    (hterms : ∀ term ∈ terms, P term) : ∀ item ∈ items, item.Has P := by
  obtain ⟨-, links, hlinks, hfolds⟩ := fold_eq_ok.mp h
  exact hP.foldsNots hlinks (hP.foldsLinks hfolds hterms).2

/-! ### Folding under a lower limit -/

variable {lower : Nat}

theorem hereditary_height (n : Nat) : Hereditary fun term => term.height ≤ n where
  not _ h := Nat.le_of_succ_le h
  logic _ x y h := by
    have hx := Nat.le_max_left x.height y.height
    have hy := Nat.le_max_right x.height y.height
    dsimp only at h
    omega

theorem FoldsNots.of_height_le (h : FoldsNots limit items links)
    (hlinks : ∀ link ∈ links, link.Has fun term => term.height ≤ lower) :
    FoldsNots lower items links := by
  induction h with
  | nil => exact .nil
  | link link _ ih =>
    obtain ⟨-, htail⟩ := List.forall_mem_cons.mp hlinks
    exact .link link (ih htail)
  | not _ hbuilt ih =>
    obtain ⟨rfl, -⟩ := Built.within_eq_ok.mp hbuilt
    obtain ⟨hnot, htail⟩ := List.forall_mem_cons.mp hlinks
    have hoperand := (hereditary_height lower).not _ hnot
    exact .not (ih (List.forall_mem_cons.mpr ⟨hoperand, htail⟩)) (Built.within_eq_ok.mpr ⟨rfl, hnot⟩)

theorem FoldsLinks.of_height_le (h : FoldsLinks limit done links terms)
    (hterms : ∀ term ∈ terms, term.height ≤ lower) : FoldsLinks lower done links terms := by
  induction h with
  | nil done => exact .nil done
  | term _ ih => exact .term (ih hterms)
  | logic hbuilt hfolds ih =>
    obtain ⟨rfl, -⟩ := Built.within_eq_ok.mp hbuilt
    obtain ⟨hdone, -⟩ := (hereditary_height lower).foldsLinks hfolds hterms
    have hlogic := hdone _ List.mem_cons_self
    exact .logic (Built.within_eq_ok.mpr ⟨rfl, hlogic⟩) (ih hterms)

theorem fold_of_height_le (h : fold limit items = .ok terms)
    (hterms : ∀ term ∈ terms, term.height ≤ lower) : fold lower items = .ok terms := by
  obtain ⟨hcheck, links, hlinks, hfolds⟩ := fold_eq_ok.mp h
  have hheights := ((hereditary_height lower).foldsLinks hfolds hterms).2
  exact fold_eq_ok.mpr
    ⟨hcheck, links, hlinks.of_height_le hheights, hfolds.of_height_le hterms⟩

end Fold

/-! ### What is carried along is what is measured -/

/-- A term that carries the height of its node, with no more roots on a path than given. -/
def Measured (levels : Nat) (term : Built) : Prop :=
  term.height = term.node.height ∧ term.node.roots ≤ levels

theorem composes_measured (levels : Nat) : Composes (Measured levels) where
  not x h := ⟨congrArg (· + 1) h.1, h.2⟩
  logic _ x y hx hy := by
    refine ⟨?_, Nat.max_le.mpr ⟨hx.2, hy.2⟩⟩
    simp only [Node.height, hx.1, hy.1]

theorem hereditary_roots (levels : Nat) : Hereditary fun term => term.node.roots ≤ levels where
  not _ h := h
  logic _ _ _ h := Nat.max_le.mp h

section Measure

variable {config : Config} {inner : List Char → Except QueryError Built} {levels : Nat}

theorem forall_mem_of_forall₂ {α β : Type} {R : α → β → Prop} {Q : β → Prop} {xs : List α}
    {ys : List β} (h : List.Forall₂ R xs ys) (hR : ∀ x y, R x y → Q y) : ∀ y ∈ ys, Q y := by
  induction h with
  | nil => simp
  | cons hfirst _ ih => exact List.forall_mem_cons.mpr ⟨hR _ _ hfirst, ih⟩

theorem measured_of_reads (hinner : ∀ text built, inner text = .ok built → Measured levels built)
    {token : List Char} {item : Pending} (h : Reads config inner token item) :
    item.Has (Measured levels) := by
  cases h with
  | empty | quoted | word => exact ⟨rfl, Nat.zero_le _⟩
  | not | logic => trivial
  | comparison _ _ hleft hright _ =>
    obtain ⟨hleftHeight, hleftRoots⟩ := hinner _ _ hleft
    obtain ⟨hrightHeight, hrightRoots⟩ := hinner _ _ hright
    refine ⟨?_, Nat.max_le.mpr ⟨hleftRoots, hrightRoots⟩⟩
    simp only [Node.height, hleftHeight, hrightHeight]
  | call _ _ _ hargs _ _ =>
    have hmeasured := forall_mem_of_forall₂ hargs hinner
    refine ⟨congrArg (· + 1) (tallest_eq fun arg harg => (hmeasured arg harg).1), ?_⟩
    apply Node.rootsAll_le_iff.mpr
    exact List.forall_mem_map.mpr fun arg harg => (hmeasured arg harg).2

theorem measured_of_buildFrom {text : List Char} {built : Built}
    (h : buildFrom config levels text = .ok built) :
    Measured levels built ∧ built.height ≤ heightLimit config := by
  induction levels generalizing text built with
  | zero => cases h
  | succ levels ih =>
    obtain ⟨parts, items, terms, -, hitems, hterms, rfl, hheight⟩ := buildFrom_eq_ok.mp h
    have hinner (text : List Char) (built : Built)
        (hbuilt : buildFrom config levels text = .ok built) : Measured levels built :=
      (ih hbuilt).1
    have hmeasured := (composes_measured levels).fold hterms
      (forall_mem_of_forall₂ hitems fun _ _ => measured_of_reads hinner)
    refine ⟨⟨congrArg (· + 1) (tallest_eq fun term hterm => (hmeasured term hterm).1), ?_⟩, hheight⟩
    apply Nat.succ_le_succ
    apply Node.rootsAll_le_iff.mpr
    exact List.forall_mem_map.mpr fun term hterm => (hmeasured term hterm).2

end Measure

/-! ### Trees that fit -/

section Fit

variable {config wide : Config}

theorem ofToken_congr (h : config.extendedOperators = wide.extendedOperators) (token : List Char) :
    Kind.ofToken config token = Kind.ofToken wide token := by
  have hclaims : Kind.claims config token = Kind.claims wide token := by
    funext kind
    cases kind <;> simp only [Kind.claims, h]
  rw [Kind.ofToken, Kind.ofToken, hclaims]

variable {inner inner' : List Char → Except QueryError Built} {levels : Nat}

/-- A term that fits under narrower limits: its roots into the levels, its height under the limit. -/
def Fits (config : Config) (levels : Nat) (term : Built) : Prop :=
  term.node.roots ≤ levels ∧ term.height ≤ heightLimit config

theorem forall₂_imp_of_mem {α β : Type} {R S : α → β → Prop} {Q : β → Prop} {xs : List α}
    {ys : List β} (h : List.Forall₂ R xs ys) (hys : ∀ y ∈ ys, Q y)
    (hRS : ∀ x y, R x y → Q y → S x y) : List.Forall₂ S xs ys := by
  induction h with
  | nil => exact .nil
  | cons hfirst _ ih =>
    obtain ⟨hy, hys⟩ := List.forall_mem_cons.mp hys
    exact .cons (hRS _ _ hfirst hy) (ih hys)

theorem Reads.of_fits (hext : config.extendedOperators = wide.extendedOperators)
    (hinner : ∀ text built, inner' text = .ok built → Fits config levels built →
      inner text = .ok built)
    {token : List Char} {item : Pending} (h : Reads wide inner' token item)
    (hfits : item.Has (Fits config levels)) : Reads config inner token item := by
  have hkind (kind : Kind) (hk : Kind.ofToken wide token = .ok kind) :
      Kind.ofToken config token = .ok kind := (ofToken_congr hext token).trans hk
  cases h with
  | empty hk => exact .empty (hkind _ hk) hfits.2
  | not hk => exact .not (hkind _ hk)
  | logic hk hop => exact .logic (hkind _ hk) hop
  | comparison hk hsplit hleft hright =>
    obtain ⟨hroots, hheight⟩ := hfits
    obtain ⟨hleftRoots, hrightRoots⟩ := Nat.max_le.mp hroots
    obtain ⟨hleftHeight, hrightHeight⟩ := Nat.max_le.mp (Nat.le_of_succ_le hheight)
    rw [← hext] at hsplit
    exact .comparison (hkind _ hk) hsplit (hinner _ _ hleft ⟨hleftRoots, hleftHeight⟩)
      (hinner _ _ hright ⟨hrightRoots, hrightHeight⟩) hheight
  | call hk hsplit hparts hargs harity =>
    obtain ⟨hroots, hheight⟩ := hfits
    have hargRoots := List.forall_mem_map.mp (Node.rootsAll_le_iff.mp hroots)
    have hargHeights := tallest_le_iff.mp (Nat.le_of_succ_le hheight)
    refine .call (hkind _ hk) hsplit hparts ?_ harity hheight
    exact forall₂_imp_of_mem hargs (fun arg harg => ⟨hargRoots arg harg, hargHeights arg harg⟩) hinner
  | quoted hk htext => exact .quoted (hkind _ hk) htext hfits.2
  | word hk => exact .word (hkind _ hk) hfits.2

theorem hereditary_fits (levels : Nat) : Hereditary (Fits config levels) where
  not x h := ⟨(hereditary_roots levels).not x h.1, (hereditary_height _).not x h.2⟩
  logic op x y h := by
    obtain ⟨hxRoots, hyRoots⟩ := (hereditary_roots levels).logic op x y h.1
    obtain ⟨hxHeight, hyHeight⟩ := (hereditary_height _).logic op x y h.2
    exact ⟨⟨hxRoots, hxHeight⟩, ⟨hyRoots, hyHeight⟩⟩

/-- What is built under wide limits and fits into narrow ones is built under these as well. -/
theorem buildFrom_of_fits (hext : config.extendedOperators = wide.extendedOperators)
    {more : Nat} {text : List Char} {built : Built} (h : buildFrom wide more text = .ok built)
    (hfits : Fits config levels built) : buildFrom config levels text = .ok built := by
  induction levels generalizing more text built with
  | zero =>
    cases more with
    | zero => cases h
    | succ more =>
      obtain ⟨_, _, _, -, -, -, rfl, -⟩ := buildFrom_eq_ok.mp h
      exact absurd hfits.1 (Nat.not_succ_le_zero _)
  | succ levels ih =>
    cases more with
    | zero => cases h
    | succ more =>
      obtain ⟨parts, items, terms, hparts, hitems, hterms, rfl, -⟩ := buildFrom_eq_ok.mp h
      obtain ⟨hroots, hheight⟩ := hfits
      have hnodes := Node.rootsAll_le_iff.mp (Nat.le_of_succ_le_succ hroots)
      have htermRoots := List.forall_mem_map.mp hnodes
      have htermHeights := tallest_le_iff.mp (Nat.le_of_succ_le hheight)
      have hinside := (hereditary_fits levels).fold hterms fun term hterm =>
        ⟨htermRoots term hterm, htermHeights term hterm⟩
      refine buildFrom_eq_ok.mpr ⟨parts, items, terms, hparts, ?_, ?_, rfl, hheight⟩
      · exact forall₂_imp_of_mem hitems hinside fun token item hitem hitemFits =>
          hitem.of_fits hext (fun _ _ hbuilt hbuiltFits => ih hbuilt hbuiltFits) hitemFits
      · exact fold_of_height_le hterms htermHeights

end Fit

/-! ### Computations cut short by a limit -/

/-- The first computation goes the way of the second one, unless it ends with a given error. -/
def Capped {α : Type} (e : QueryError) (x y : Except QueryError α) : Prop :=
  x = y ∨ x = .error e

namespace Capped

variable {α β : Type} {e : QueryError}

theorem refl (x : Except QueryError α) : Capped e x x :=
  .inl rfl

theorem trans {x y z : Except QueryError α} (hxy : Capped e x y) (hyz : Capped e y z) :
    Capped e x z := by
  rcases hxy with rfl | hxy
  · exact hyz
  · exact .inr hxy

theorem bind {x y : Except QueryError α} {f g : α → Except QueryError β} (hxy : Capped e x y)
    (hfg : ∀ a, Capped e (f a) (g a)) : Capped e (x >>= f) (y >>= g) := by
  rcases hxy with rfl | rfl
  · cases x with
    | error e' => exact .refl _
    | ok a => exact hfg a
  · exact .inr rfl

theorem map {x y : Except QueryError α} (f : α → β) (hxy : Capped e x y) :
    Capped e (x.map f) (y.map f) := by
  rcases hxy with rfl | rfl
  · exact .refl _
  · exact .inr rfl

theorem mapM {f g : α → Except QueryError β} (hfg : ∀ a, Capped e (f a) (g a)) (xs : List α) :
    Capped e (xs.mapM f) (xs.mapM g) := by
  induction xs with
  | nil => exact .refl _
  | cons x xs ih =>
    rw [List.mapM_cons, List.mapM_cons]
    exact (hfg x).bind fun _ => ih.bind fun _ => .refl _

end Capped

section Cap

variable {e : QueryError} {limit wider : Nat}

theorem capped_within (h : limit ≤ wider) (node : Node) (height : Nat) :
    Capped (.tooDeep limit) (Built.within limit node height) (Built.within wider node height) := by
  by_cases hheight : height ≤ limit
  · left
    rw [Built.within, Built.within, if_pos hheight, if_pos (hheight.trans h)]
  · right
    rw [Built.within, if_neg hheight]

variable (hwithin : ∀ node height,
  Capped e (Built.within limit node height) (Built.within wider node height))
include hwithin

theorem capped_foldNots (items : List Pending) :
    Capped e (foldNots limit items) (foldNots wider items) := by
  induction items with
  | nil => exact .refl _
  | cons item rest ih =>
    cases item with
    | link link =>
      rw [foldNots, foldNots]
      exact ih.map _
    | not =>
      rw [foldNots, foldNots]
      refine ih.bind fun links => ?_
      split
      · exact (hwithin _ _).bind fun _ => .refl _
      · exact .refl _

theorem capped_foldLinks (done : List Built) (links : List Link) :
    Capped e (foldLinks limit done links) (foldLinks wider done links) := by
  fun_induction foldLinks limit done links with
  | case1 done => exact .refl _
  | case2 done term rest ih =>
    rw [foldLinks]
    exact ih
  | case3 left done op right rest ih =>
    rw [foldLinks]
    exact (hwithin _ _).bind ih
  | case4 done op rest hnot =>
    rw [foldLinks]
    · exact .refl _
    · exact hnot

theorem capped_fold (items : List Pending) : Capped e (fold limit items) (fold wider items) := by
  rw [fold, fold]
  exact (Capped.refl _).bind fun _ =>
    (capped_foldNots hwithin items).bind fun links => capped_foldLinks hwithin [] links

end Cap

section Cap

variable {e : QueryError} {config wide : Config}
  (hext : config.extendedOperators = wide.extendedOperators)
  (hwithin : ∀ node height, Capped e (Built.within (heightLimit config) node height)
    (Built.within (heightLimit wide) node height))
include hext hwithin

theorem capped_pending {inner inner' : List Char → Except QueryError Built}
    (hinner : ∀ text, Capped e (inner text) (inner' text)) (token : List Char) :
    Capped e (pending config inner token) (pending wide inner' token) := by
  have hterm (node : Node) (height : Nat) :
      Capped e (do return Pending.term (← Built.within (heightLimit config) node height))
        (do return Pending.term (← Built.within (heightLimit wide) node height)) :=
    (hwithin node height).bind fun _ => .refl _
  rw [pending, pending, ofToken_congr hext, hext]
  refine (Capped.refl _).bind fun kind => ?_
  cases kind with
  | root | not | logic => exact .refl _
  | empty | word => exact hterm _ _
  | comparison =>
    dsimp only
    split
    · next key op value _ =>
      exact (hinner key).bind fun left => (hinner value).bind fun right => hterm _ _
    · exact .refl _
  | call =>
    dsimp only
    split
    · refine (Capped.refl _).bind fun parts => (Capped.mapM hinner parts).bind fun args => ?_
      exact (Capped.refl _).bind fun _ => hterm _ _
    · exact .refl _
  | quoted =>
    dsimp only
    split
    · exact hterm _ _
    · exact .refl _

theorem capped_buildFrom {extra : Nat}
    (hbottom : ∀ text, Capped e (buildFrom config 0 text) (buildFrom wide extra text))
    (levels : Nat) (text : List Char) :
    Capped e (buildFrom config levels text) (buildFrom wide (levels + extra) text) := by
  induction levels generalizing text with
  | zero =>
    rw [Nat.zero_add]
    exact hbottom text
  | succ levels ih =>
    rw [Nat.succ_add, buildFrom, buildFrom]
    refine (Capped.refl _).bind fun parts => ?_
    refine (Capped.mapM (capped_pending hext hwithin ih) parts).bind fun items => ?_
    exact (capped_fold hwithin items).bind fun terms => hwithin _ _

end Cap

/-! ### Both limits -/

def limited (config : Config) (depth height : UInt64) : Config :=
  { config with maxDepth := depth, maxHeight := height }

/-- How deep the roots of a tree nest: the largest number of roots on a path, the top one apart. -/
def Node.nest (tree : Node) : Nat :=
  tree.roots - 1

section Limits

theorem limited_extended (config : Config) (depth height depth' height' : UInt64) :
    (limited config depth height).extendedOperators =
      (limited config depth' height').extendedOperators := rfl

variable {config : Config} {query : List Char} {depth depth' height height' : UInt64} {tree : Node}

theorem fits_of_build (h : build (limited config depth height) query = .ok tree) :
    tree.nest ≤ depth.toNat ∧ tree.height ≤ height.toNat := by
  obtain ⟨built, hbuilt, rfl⟩ := map_eq_ok.mp h
  obtain ⟨⟨hmeasure, hroots⟩, hheight⟩ := measured_of_buildFrom hbuilt
  have hroots' : built.node.roots ≤ depth.toNat + 1 := hroots
  have hheight' : built.height ≤ height.toNat := hheight
  rw [Node.nest]
  omega

theorem build_of_fits (h : build (limited config depth' height') query = .ok tree)
    (hnest : tree.nest ≤ depth.toNat) (hheight : tree.height ≤ height.toNat) :
    build (limited config depth height) query = .ok tree := by
  obtain ⟨built, hbuilt, rfl⟩ := map_eq_ok.mp h
  have hmeasure := (measured_of_buildFrom hbuilt).1.1
  have hfits : Fits (limited config depth height) (depth.toNat + 1) built :=
    ⟨Nat.le_add_of_sub_le hnest, hmeasure.trans_le hheight⟩
  exact map_eq_ok.mpr ⟨built, buildFrom_of_fits (limited_extended ..) hbuilt hfits, rfl⟩

theorem capped_build_depth (h : depth ≤ depth') :
    Capped (.tooDeep depth.toNat) (build (limited config depth height) query)
      (build (limited config depth' height) query) := by
  obtain ⟨extra, hextra⟩ := Nat.exists_eq_add_of_le (UInt64.le_iff_toNat_le.mp h)
  have hbottom (text : List Char) : Capped (.tooDeep depth.toNat)
      (buildFrom (limited config depth height) 0 text)
      (buildFrom (limited config depth' height) extra text) := .inr rfl
  have hlevels : depth'.toNat + 1 = depth.toNat + 1 + extra := by omega
  have hcapped := capped_buildFrom (limited_extended config depth height depth' height)
    (fun _ _ => .refl _) hbottom (depth.toNat + 1) query
  rw [← hlevels] at hcapped
  exact hcapped.map _

theorem capped_build_height (h : height ≤ height') :
    Capped (.tooDeep height.toNat) (build (limited config depth height) query)
      (build (limited config depth height') query) := by
  have hbottom (text : List Char) : Capped (.tooDeep height.toNat)
      (buildFrom (limited config depth height) 0 text)
      (buildFrom (limited config depth height') 0 text) := .refl _
  have hwithin := capped_within (UInt64.le_iff_toNat_le.mp h)
  have hcapped := capped_buildFrom (limited_extended ..) hwithin hbottom (depth.toNat + 1) query
  exact hcapped.map _

/-- A tree that nests too deep is rejected for that, if not for its height. -/
theorem build_of_nest_gt (h : build (limited config depth' height) query = .ok tree)
    (hdepth : depth ≤ depth') (hnest : depth.toNat < tree.nest) :
    build (limited config depth height) query = .error (.tooDeep depth.toNat) := by
  rcases capped_build_depth hdepth with hsame | herror
  · rw [h] at hsame
    exact absurd (fits_of_build hsame).1 (Nat.not_le.mpr hnest)
  · exact herror

theorem build_of_height_gt (h : build (limited config depth height') query = .ok tree)
    (hheight : height ≤ height') (htall : height.toNat < tree.height) :
    build (limited config depth height) query = .error (.tooDeep height.toNat) := by
  rcases capped_build_height hheight with hsame | herror
  · rw [h] at hsame
    exact absurd (fits_of_build hsame).2 (Nat.not_le.mpr htall)
  · exact herror

end Limits

/-- The limits are exact. Every tree keeps to them; what wide limits let through, narrow ones let
through unchanged if it keeps to them, and reject with the limit that it goes beyond if it does not;
and where building fails under wide limits, it fails under narrow ones with the same error or with one
of the limits. -/
theorem build_limits_exact (config : Config) (query : List Char) (depth height : UInt64) :
    (∀ tree, build (limited config depth height) query = .ok tree →
      tree.nest ≤ depth.toNat ∧ tree.height ≤ height.toNat) ∧
    ∀ depth' height', depth ≤ depth' → height ≤ height' →
      (∀ tree, build (limited config depth' height') query = .ok tree →
        (tree.nest ≤ depth.toNat → tree.height ≤ height.toNat →
          build (limited config depth height) query = .ok tree) ∧
        (depth.toNat < tree.nest → tree.height ≤ height.toNat →
          build (limited config depth height) query = .error (.tooDeep depth.toNat)) ∧
        (tree.nest ≤ depth.toNat → height.toNat < tree.height →
          build (limited config depth height) query = .error (.tooDeep height.toNat)) ∧
        (depth.toNat < tree.nest → height.toNat < tree.height →
          build (limited config depth height) query = .error (.tooDeep depth.toNat) ∨
          build (limited config depth height) query = .error (.tooDeep height.toNat))) ∧
      ∀ e, build (limited config depth' height') query = .error e →
        build (limited config depth height) query = .error e ∨
        build (limited config depth height) query = .error (.tooDeep depth.toNat) ∨
        build (limited config depth height) query = .error (.tooDeep height.toNat) := by
  refine ⟨fun tree => fits_of_build, fun depth' height' hdepth hheight => ⟨fun tree h => ?_, ?_⟩⟩
  · obtain ⟨hnest', htall'⟩ := fits_of_build h
    refine ⟨build_of_fits h, fun hnest htall => ?_, fun hnest htall => ?_, fun hnest _ => ?_⟩
    · exact build_of_nest_gt (build_of_fits h hnest' htall) hdepth hnest
    · exact build_of_height_gt (build_of_fits h hnest htall') hheight htall
    · have hdeep := build_of_nest_gt h hdepth hnest
      rcases capped_build_height hheight with hsame | herror
      · exact .inl (hsame.trans hdeep)
      · exact .inr herror
  · intro e h
    rcases capped_build_height hheight with hsame | herror
    · rcases capped_build_depth hdepth with hsame' | herror
      · exact .inl (hsame.trans (hsame'.trans h))
      · exact .inr (.inl (hsame.trans herror))
    · exact .inr (.inr herror)

theorem build_limits_of_nested_groups :
    build (limited .standard 2 7) "((a)) AND b".toList =
      .ok (.root [.logic .and (.call .group [.root [.call .group [.root [.word "a"]]]]) (.word "b")]) ∧
    build (limited .standard 1 7) "((a)) AND b".toList = .error (.tooDeep 1) ∧
    build (limited .standard 2 6) "((a)) AND b".toList = .error (.tooDeep 6) := by
  have hwide : build (limited .standard 64 512) "((a)) AND b".toList =
      .ok (.root [.logic .and (.call .group [.root [.call .group [.root [.word "a"]]]])
        (.word "b")]) := by
    decide +kernel
  have hlimits (depth height : UInt64) (hdepth : depth ≤ 64) (hheight : height ≤ 512) :=
    ((build_limits_exact .standard "((a)) AND b".toList depth height).2 64 512 hdepth hheight).1 _ hwide
  refine ⟨?_, ?_, ?_⟩
  · exact (hlimits 2 7 (by decide) (by decide)).1 (by decide) (by decide)
  · exact (hlimits 1 7 (by decide) (by decide)).2.1 (by decide) (by decide)
  · exact (hlimits 2 6 (by decide) (by decide)).2.2.1 (by decide) (by decide)

end RowSearch.Query
