import RowSearch.Proofs.Identify
import RowSearch.Proofs.Influence
import RowSearch.Proofs.Limits
import RowSearch.Proofs.Visible
/-!
# The shape of a built tree

Not every tree comes from a query. `Node.Formed` says for each kind of node what it may hold, and a
tree is well formed when all of its nodes are formed and it is a root. The proof is an induction on the
levels, and what is known of the root of a text depends on the text: if the text has neither blanks nor
comparison symbols at its top, as the sides of a comparison, the root holds one node; and if it is not
all blank, as the only argument of a call, the root holds something.
-/

namespace RowSearch.Query

open Text (isBlank Blank)
open Zone (top)

/-! ### Formed nodes -/

namespace Node

/-- A root that holds one node, as on either side of a comparison. -/
def Side (node : Node) : Prop :=
  ∃ only, node = root [only] ∧ only.kind ∈ [Kind.empty, .call, .quoted, .word]

/-- A root that does not stand for an empty text. -/
def Filled (node : Node) : Prop :=
  ∃ terms, node = root terms ∧ empty ∉ terms

def Formed : Node → Prop
  | root terms =>
    terms ≠ [] ∧ (∀ term ∈ terms, term.kind ≠ .root) ∧ (empty ∈ terms → terms = [empty])
  | empty => True
  | not operand => operand.kind ∉ [Kind.root, .empty, .logic]
  | logic _ left right =>
    left.kind ∉ [Kind.root, .empty] ∧ right.kind ∉ [Kind.root, .empty, .logic]
  | comparison _ key value => key.Side ∧ value.Side
  | call f args => args.length = f.arity ∧ ∀ arg ∈ args, arg.Filled
  | quoted text => unquote? ('"' :: (text.toList ++ ['"'])) = some text.toList
  | word text =>
    text ≠ "" ∧ text ∉ ["AND", "OR", "NOT"] ∧ Balanced text.toList ∧ Hides isBlank top text.toList

def Sound (tree : Node) : Prop :=
  ∀ node, tree.Has node → node.Formed

theorem Sound.of_children {tree : Node} (h : tree.Formed) (hchildren : ∀ child ∈ tree.children, child.Sound) :
    tree.Sound := by
  intro node hnode
  rcases hnode.eq_or_below with rfl | ⟨child, hchild, hbelow⟩
  · exact h
  · exact hchildren child hchild node hbelow

theorem Sound.of_leaf {tree : Node} (h : tree.Formed) (hleaf : tree.children = []) : tree.Sound :=
  .of_children h fun child hchild => by
    rw [hleaf] at hchild
    cases hchild

theorem sound_root_empty : (root [empty]).Sound := by
  refine .of_children ⟨List.cons_ne_nil _ _, ?_, fun _ => rfl⟩ ?_
  · exact List.forall_mem_singleton.mpr (by decide)
  · exact List.forall_mem_singleton.mpr (.of_leaf trivial rfl)

theorem Formed.of_empty {node : Node} (h : node.Formed) (hempty : empty ∈ node.children) :
    node = root [empty] := by
  cases node with
  | root terms => exact congrArg root (h.2.2 hempty)
  | not operand =>
    rw [← List.mem_singleton.mp hempty] at h
    exact absurd (by decide) h
  | logic op left right =>
    rcases List.mem_cons.mp hempty with rfl | hright
    · exact absurd (by decide) h.1
    · rw [← List.mem_singleton.mp hright] at h
      exact absurd (by decide) h.2
  | comparison op key value =>
    obtain ⟨⟨_, hkey, -⟩, ⟨_, hvalue, -⟩⟩ := h
    rcases List.mem_cons.mp hempty with rfl | hright
    · cases hkey
    · rw [← List.mem_singleton.mp hright] at hvalue
      cases hvalue
  | call f args =>
    obtain ⟨terms, hterms, -⟩ := h.2 _ hempty
    cases hterms
  | empty | quoted _ | word _ => cases hempty

theorem Formed.of_root_empty {node : Node} (h : node.Formed) (hroot : root [empty] ∈ node.children) :
    node.kind = .comparison := by
  cases node with
  | root terms => exact absurd rfl (h.2.1 _ hroot)
  | not operand =>
    rw [← List.mem_singleton.mp hroot] at h
    exact absurd (by decide) h
  | logic op left right =>
    rcases List.mem_cons.mp hroot with rfl | hright
    · exact absurd (by decide) h.1
    · rw [← List.mem_singleton.mp hright] at h
      exact absurd (by decide) h.2
  | comparison op key value => rfl
  | call f args =>
    obtain ⟨terms, hterms, hempty⟩ := h.2 _ hroot
    cases hterms
    exact absurd List.mem_cons_self hempty
  | empty | quoted _ | word _ => cases hroot

/-- A tree as building makes them. An empty node stands alone in its root, and this root is the whole
tree or a side of a comparison. -/
structure WellFormed (tree : Node) : Prop where
  top : tree.kind = .root
  formed : ∀ node, tree.Has node → node.Formed
  empty_alone : ∀ node, tree.Has node → empty ∈ node.children → node = root [empty]
  empty_side : ∀ node, tree.Has node → root [empty] ∈ node.children → node.kind = .comparison

theorem Sound.wellFormed {tree : Node} (h : tree.Sound) (htop : tree.kind = .root) :
    tree.WellFormed where
  top := htop
  formed := h
  empty_alone node hnode := (h node hnode).of_empty
  empty_side node hnode := (h node hnode).of_root_empty

end Node

/-! ### Terms -/

/-- A term that may be negated, and may stand to the right of a connective. -/
def Operand (term : Built) : Prop :=
  term.node.Sound ∧ term.node.kind ∉ [Kind.root, .empty, .logic]

/-- A term that may stand to the left of a connective. -/
def Filling (term : Built) : Prop :=
  term.node.Sound ∧ term.node.kind ∉ [Kind.root, .empty]

theorem assembles_operand : Assembles Operand Filling where
  not x h := ⟨.of_children h.2 (List.forall_mem_singleton.mpr h.1), by simp [Node.kind]⟩
  term x h := ⟨h.1, fun hmem => h.2 (List.mem_append_left [Kind.logic] hmem)⟩
  logic op x y hx hy := by
    refine ⟨.of_children ⟨hx.2, hy.2⟩ ?_, by simp [Node.kind]⟩
    exact List.forall_mem_cons.mpr ⟨hx.1, List.forall_mem_singleton.mpr hy.1⟩

/-- Terms that may stand to the left of a connective make up a root. -/
theorem root_of_filling {terms : List Built} (hne : terms ≠ []) (h : ∀ term ∈ terms, Filling term) :
    (Node.root (terms.map (·.node))).Sound ∧ Node.empty ∉ terms.map (·.node) := by
  have hempty : Node.empty ∉ terms.map (·.node) := by
    intro hmem
    obtain ⟨term, hterm, hnode⟩ := List.mem_map.mp hmem
    exact (h term hterm).2 (by rw [hnode]; decide)
  refine ⟨.of_children ⟨?_, ?_, fun hmem => absurd hmem hempty⟩ ?_, hempty⟩
  · simpa using hne
  · exact List.forall_mem_map.mpr fun term hterm hroot => (h term hterm).2 (by rw [hroot]; decide)
  · exact List.forall_mem_map.mpr fun term hterm => (h term hterm).1

section Reads

variable {config : Config} {inner : List Char → Except QueryError Built} {token : List Char}

/-- The node of a token is of the kind of the token. -/
theorem Reads.kind_eq {term : Built} (h : Reads config inner token (.term term)) :
    Kind.ofToken config token = .ok term.node.kind := by
  cases h <;> assumption

theorem Reads.kind_mem {term : Built} (h : Reads config inner token (.term term)) :
    term.node.kind ∈ [Kind.empty, .comparison, .call, .quoted, .word] := by
  cases h <;> simp [Node.kind]

theorem eq_nil_of_ofToken (h : Kind.ofToken config token = .ok .empty) : token = [] :=
  List.isEmpty_iff.mp (Kind.claims_of_ofToken h)

theorem not_keyword_of_ofToken (h : Kind.ofToken config token = .ok .word) :
    token ∉ ["AND".toList, "OR".toList, "NOT".toList] := by
  intro hmem
  simp only [List.mem_cons, List.not_mem_nil, or_false] at hmem
  rcases hmem with rfl | rfl | rfl
  · cases h.symm.trans (show _ = Except.ok Kind.logic from rfl)
  · cases h.symm.trans (show _ = Except.ok Kind.logic from rfl)
  · cases h.symm.trans (show _ = Except.ok Kind.not from rfl)

theorem formed_word (h : Kind.ofToken config token = .ok .word) (hbalanced : Balanced token)
    (hhides : Hides isBlank top token) : (Node.word (String.ofList token)).Formed := by
  have hkeyword := not_keyword_of_ofToken h
  have htoken {text : String} (heq : String.ofList token = text) : token = text.toList := by
    rw [← heq, String.toList_ofList]
  refine ⟨fun heq => ?_, fun hmem => hkeyword ?_, ?_, ?_⟩
  · rw [htoken heq] at h
    cases h
  · simp only [List.mem_cons, List.not_mem_nil, or_false] at hmem ⊢
    exact hmem.imp htoken (Or.imp htoken htoken)
  · rwa [String.toList_ofList]
  · rwa [String.toList_ofList]

theorem formed_quoted {body : List Char} (h : unquote? token = some body) :
    (Node.quoted (String.ofList body)).Formed := by
  obtain ⟨rfl, -⟩ := unquote?_eq_some.mp h
  rwa [Node.Formed, String.toList_ofList]

end Reads

/-! ### Arguments -/

theorem Splits.eq_of_singleton {separator text piece : List Char} {z : Zone}
    (h : Splits separator z text [piece]) : text = piece := by
  cases h with
  | last _ _ => rfl
  | next _ hrest => exact absurd rfl hrest.ne_nil

/-- The only segment of a text is not blank, as a text of nothing else has no segments. -/
theorem not_blank_of_splitAt {separator text piece : List Char} (hne : separator ≠ [])
    (h : splitAt separator text = .ok [piece]) : ¬Blank piece := by
  rw [splitAt] at h
  split at h
  · cases h
  · next hbody =>
    obtain ⟨pieces, hpieces, hmap⟩ := map_eq_ok.mp h
    obtain ⟨segment, rfl, rfl⟩ := List.map_eq_singleton_iff.mp hmap
    have hsegment : trimSeparators separator text = segment :=
      (scans_of_segmentsFrom hne hpieces).splits.eq_of_singleton
    subst hsegment
    have htight := tight_trimSeparators separator text
    obtain ⟨c, rest, hcons⟩ := List.exists_cons_of_ne_nil hbody
    intro hblank
    rw [Text.trim_eq_self htight] at hblank
    have hc := htight.1 c (by rw [hcons]; rfl)
    rw [hblank c (by rw [hcons]; exact List.mem_cons_self)] at hc
    cases hc

/-! ### Roots -/

structure Rooted (text : List Char) (tree : Node) : Prop where
  sound : tree.Sound
  filled : ¬Blank text → tree.Filled
  side : Hides isBlank top text → Hides isComparison top text → tree.Side

section Level

variable {config : Config} {inner : List Char → Except QueryError Built}

theorem sound_of_reads (hinner : ∀ text built, inner text = .ok built → Rooted text built.node)
    {token : List Char} (hbalanced : Balanced token) (hhides : Hides isBlank top token) {term : Built}
    (h : Reads config inner token (.term term)) : term.node.Sound := by
  cases h with
  | empty _ _ => exact .of_leaf trivial rfl
  | @comparison op key value left right _ hsplit hleft hright _ =>
    obtain ⟨hkey, hvalue⟩ := hides_of_splitComparison? hsplit
    obtain ⟨rfl, hrun⟩ := splitComparison?_eq_some hsplit
    obtain ⟨hfront, hback⟩ := hides_append.mp hhides
    obtain ⟨hfront, -⟩ := hides_append.mp hfront
    rw [Zone.run_append, hrun, Zone.run_eq_of_run? (Zone.run?_neutral rfl op.neutral_symbol)] at hback
    have hleft := hinner _ _ hleft
    have hright := hinner _ _ hright
    refine .of_children ⟨hleft.side hfront hkey, hright.side hback hvalue⟩ ?_
    exact List.forall_mem_cons.mpr ⟨hleft.sound, List.forall_mem_singleton.mpr hright.sound⟩
  | @call f text parts args _ _ hparts hargs harity _ =>
    have hone : f.arity = 1 := by cases f <;> rfl
    obtain ⟨arg, rfl⟩ := List.length_eq_one_iff.mp (harity.trans hone)
    cases hargs with
    | cons harg hnil =>
      cases hnil
      have hrooted := hinner _ _ harg
      have hfilled := hrooted.filled (not_blank_of_splitAt (List.cons_ne_nil _ _) hparts)
      refine .of_children ⟨harity, ?_⟩ ?_
      · exact List.forall_mem_singleton.mpr hfilled
      · exact List.forall_mem_singleton.mpr hrooted.sound
  | quoted _ htext _ => exact .of_leaf (formed_quoted htext) rfl
  | word hkind _ => exact .of_leaf (formed_word hkind hbalanced hhides) rfl

theorem tokens_ne_nil {text : List Char} {parts : List (List Char)} (h : tokens text = .ok parts) :
    parts ≠ [] := by
  obtain ⟨-, pieces, -, rfl⟩ := tokens_eq_ok.mp h
  split
  · exact List.cons_ne_nil _ _
  · assumption

/-- The only token of a side of a comparison is no comparison. -/
theorem side_of_reads {text : List Char} {parts : List (List Char)} {items : List Pending}
    {terms : List Built} (hparts : tokens text = .ok parts)
    (hitems : List.Forall₂ (Reads config inner) parts items)
    (hterms : fold (heightLimit config) items = .ok terms) (hblanks : Hides isBlank top text)
    (hsymbols : Hides isComparison top text) : (Node.root (terms.map (·.node))).Side := by
  obtain ⟨token, rfl⟩ := tokens_of_hides hblanks hparts
  have htidy : Hides isComparison top (tidy text) :=
    (hides_tidyFrom (fun _ _ hc => hc) (fun _ _ _ => rfl) (fun _ => rfl) hsymbols).trim
  have htoken := hides_tokens htidy hparts token (List.mem_singleton_self _)
  cases hitems with
  | cons hread hnil =>
    cases hnil
    obtain ⟨term, rfl, rfl⟩ := fold_singleton hterms
    refine ⟨term.node, rfl, ?_⟩
    have hkind := hread.kind_mem
    have hne : term.node.kind ≠ .comparison := by
      intro heq
      have hclaims := Kind.claims_of_ofToken (heq ▸ hread.kind_eq)
      rw [Kind.claims, splitComparison?, comparisons, comparisonsFrom_eq_nil htoken] at hclaims
      cases hclaims
    simp only [List.mem_cons, List.not_mem_nil, or_false] at hkind ⊢
    exact hkind.imp_right fun hrest => hrest.resolve_left hne

theorem operand_of_reads (hinner : ∀ text built, inner text = .ok built → Rooted text built.node)
    {token : List Char} (hbalanced : Balanced token) (hhides : Hides isBlank top token)
    (hne : token ≠ []) {item : Pending} (h : Reads config inner token item) : item.Has Operand := by
  match item with
  | .not | .logic _ => trivial
  | .term term =>
    have hkind := h.kind_mem
    refine ⟨sound_of_reads hinner hbalanced hhides h, ?_⟩
    rcases List.mem_cons.mp hkind with heq | hkind
    · exact absurd (eq_nil_of_ofToken (heq ▸ h.kind_eq)) hne
    · simp only [List.mem_cons, List.not_mem_nil, or_false] at hkind
      rcases hkind with heq | heq | heq | heq <;> rw [heq] <;> decide

theorem rooted_of_buildFrom {levels : Nat} {text : List Char} {built : Built}
    (h : buildFrom config levels text = .ok built) : Rooted text built.node := by
  induction levels generalizing text built with
  | zero => cases h
  | succ levels ih =>
    obtain ⟨parts, items, terms, hparts, hitems, hterms, rfl, -⟩ := buildFrom_eq_ok.mp h
    have hinner (text : List Char) (built : Built) :
        buildFrom config levels text = .ok built → Rooted text built.node := ih
    have hside := side_of_reads hparts hitems hterms
    rcases ne_nil_of_tokens hparts with ⟨hblank, rfl⟩ | hne
    · cases hitems with
      | cons hread hnil =>
        cases hnil
        obtain ⟨term, rfl, rfl⟩ := fold_singleton hterms
        have hempty : term.node = .empty := by
          have hkind := hread.kind_eq.symm.trans (show _ = Except.ok Kind.empty from rfl)
          cases hnode : term.node <;> rw [hnode] at hkind <;> cases hkind
        refine ⟨?_, fun hfilled => absurd hblank hfilled, hside⟩
        show (Node.root [term.node]).Sound
        rw [hempty]
        exact Node.sound_root_empty
    · have hread := (List.forall₂_and_left parts items).mpr ⟨fun _ => id, hitems⟩
      have hoperands := forall_mem_of_forall₂ hread fun token item ⟨htoken, hitem⟩ =>
        operand_of_reads hinner (balanced_of_tokens hparts token htoken)
          (hides_of_tokens hparts token htoken) (hne token htoken) hitem
      have hfilling := assembles_operand.fold hterms hoperands
      have hitems_ne : items ≠ [] := by
        rintro rfl
        exact tokens_ne_nil hparts (List.forall₂_nil_right_iff.mp hitems)
      obtain ⟨hsound, hempty⟩ := root_of_filling (fold_ne_nil hterms hitems_ne) hfilling
      exact ⟨hsound, fun _ => ⟨_, rfl, hempty⟩, hside⟩

end Level

/-- Every tree that is built is well formed. -/
theorem build_wellFormed {config : Config} {query : List Char} {tree : Node}
    (h : build config query = .ok tree) : tree.WellFormed := by
  obtain ⟨built, hbuilt, rfl⟩ := map_eq_ok.mp h
  obtain ⟨parts, items, terms, -, -, -, rfl, -⟩ := buildFrom_eq_ok.mp hbuilt
  exact (rooted_of_buildFrom hbuilt).sound.wellFormed rfl

theorem build_wellFormed_of_nested_calls :
    (Node.root [.logic .and
      (.logic .or (.call .abs [.root [.word "c", .quoted "d  e"]])
        (.not (.call .group [.root [.word "f"]])))
      (.not (.comparison .eq (.root [.word "a\\ b"]) (.root [.empty])))]).WellFormed := by
  have hbuild : build .standard "abs(c \"d  e\") OR NOT (f) AND NOT a\\ b =".toList =
      .ok (.root [.logic .and
        (.logic .or (.call .abs [.root [.word "c", .quoted "d  e"]])
          (.not (.call .group [.root [.word "f"]])))
        (.not (.comparison .eq (.root [.word "a\\ b"]) (.root [.empty])))]) := by
    decide +kernel
  exact build_wellFormed hbuild

end RowSearch.Query
