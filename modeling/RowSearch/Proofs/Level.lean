import RowSearch.Proofs.Fold
import RowSearch.Proofs.Split
import RowSearch.Query.Build
/-!
# One level of a tree

Building is a recursion over levels, and all that the proofs need to know about it is what one level
does. `Reads` says of each kind of token which item it becomes and what has to hold for that, given
what the queries inside of it become; `buildFrom_eq_ok` says how the items make up a root. Whatever
is true of every tree is proved by an induction on the levels with these two.
-/

namespace RowSearch.Query

open Zone (top)

variable {config : Config} {inner : List Char → Except QueryError Built} {token : List Char}

/-! ### Kinds -/

namespace Kind

theorem ofToken_eq_ok {k : Kind} :
    ofToken config token = .ok k ↔ order.find? (claims config token) = some k := by
  rw [ofToken]
  split
  · next found hfound => rw [hfound, Except.ok.injEq, Option.some.injEq]
  · next hfound => simp [hfound]

theorem claims_of_ofToken {k : Kind} (h : ofToken config token = .ok k) :
    claims config token k = true :=
  List.find?_some (ofToken_eq_ok.mp h)

end Kind

theorem LogicOp.ofToken?_eq_some {op : LogicOp} :
    LogicOp.ofToken? token = some op ↔ op.keyword.toList = token := by
  rw [LogicOp.ofToken?]
  constructor
  · intro h
    simpa using List.find?_some h
  · intro heq
    subst heq
    cases op <;> decide

/-! ### Tokens -/

theorem Function.checkArity_eq_ok {f : Function} {count : Nat} :
    f.checkArity count = .ok () ↔ count = f.arity := by
  rw [Function.checkArity]
  split
  · next h => simp [h]
  · next h => simp [h]

/-- What a token becomes in the sequence that is folded, where `inner` builds the queries inside. -/
inductive Reads (config : Config) (inner : List Char → Except QueryError Built)
    (token : List Char) : Pending → Prop
  | empty : Kind.ofToken config token = .ok .empty → 1 ≤ heightLimit config →
    Reads config inner token (.term ⟨.empty, 1⟩)
  | not : Kind.ofToken config token = .ok .not → Reads config inner token .not
  | logic {op : LogicOp} : Kind.ofToken config token = .ok .logic →
    LogicOp.ofToken? token = some op → Reads config inner token (.logic op)
  | comparison {op : CompareOp} {key value : List Char} {left right : Built} :
    Kind.ofToken config token = .ok .comparison →
    splitComparison? config.extendedOperators token = some (key, op, value) →
    inner key = .ok left → inner value = .ok right →
    max left.height right.height + 1 ≤ heightLimit config →
    Reads config inner token
      (.term ⟨.comparison op left.node right.node, max left.height right.height + 1⟩)
  | call {f : Function} {text : List Char} {parts : List (List Char)} {args : List Built} :
    Kind.ofToken config token = .ok .call → splitCall? token = some (f, text) →
    splitAt [','] text = .ok parts → List.Forall₂ (fun part arg => inner part = .ok arg) parts args →
    args.length = f.arity → tallest args + 1 ≤ heightLimit config →
    Reads config inner token (.term ⟨.call f (args.map (·.node)), tallest args + 1⟩)
  | quoted {text : List Char} : Kind.ofToken config token = .ok .quoted →
    unquote? token = some text → 1 ≤ heightLimit config →
    Reads config inner token (.term ⟨.quoted (String.ofList text), 1⟩)
  | word : Kind.ofToken config token = .ok .word → 1 ≤ heightLimit config →
    Reads config inner token (.term ⟨.word (String.ofList token), 1⟩)

/-- A finished term within the limit, as an item. -/
theorem term_within_eq_ok {limit height : Nat} {node : Node} {item : Pending} :
    (do return Pending.term (← Built.within limit node height) : Except QueryError Pending) = .ok item ↔
      item = .term ⟨node, height⟩ ∧ height ≤ limit := by
  rw [bind_eq_ok]
  simp only [Built.within_eq_ok]
  constructor
  · intro h
    obtain ⟨built, ⟨rfl, hheight⟩, hitem⟩ := h
    exact ⟨(Except.ok.inj hitem).symm, hheight⟩
  · intro h
    obtain ⟨rfl, hheight⟩ := h
    exact ⟨_, ⟨rfl, hheight⟩, rfl⟩

theorem reads_of_pending {item : Pending} (h : pending config inner token = .ok item) :
    Reads config inner token item := by
  rw [pending] at h
  obtain ⟨kind, hkind, h⟩ := bind_eq_ok.mp h
  cases kind with
  | root => cases h
  | empty =>
    obtain ⟨rfl, hheight⟩ := term_within_eq_ok.mp h
    exact .empty hkind hheight
  | not =>
    cases h
    exact .not hkind
  | logic =>
    cases hop : LogicOp.ofToken? token with
    | none =>
      rw [hop] at h
      cases h
    | some op =>
      rw [hop] at h
      cases h
      exact .logic hkind hop
  | comparison =>
    cases hsplit : splitComparison? config.extendedOperators token with
    | none =>
      rw [hsplit] at h
      cases h
    | some parts =>
      obtain ⟨key, op, value⟩ := parts
      rw [hsplit] at h
      obtain ⟨left, hleft, h⟩ := bind_eq_ok.mp h
      obtain ⟨right, hright, h⟩ := bind_eq_ok.mp h
      obtain ⟨rfl, hheight⟩ := term_within_eq_ok.mp h
      exact .comparison hkind hsplit hleft hright hheight
  | call =>
    cases hsplit : splitCall? token with
    | none =>
      rw [hsplit] at h
      cases h
    | some found =>
      obtain ⟨f, text⟩ := found
      rw [hsplit] at h
      obtain ⟨parts, hparts, h⟩ := bind_eq_ok.mp h
      obtain ⟨args, hargs, h⟩ := bind_eq_ok.mp h
      obtain ⟨⟨⟩, harity, h⟩ := bind_eq_ok.mp h
      obtain ⟨rfl, hheight⟩ := term_within_eq_ok.mp h
      exact .call hkind hsplit hparts (mapM_eq_ok.mp hargs) (Function.checkArity_eq_ok.mp harity)
        hheight
  | quoted =>
    cases htext : unquote? token with
    | none =>
      rw [htext] at h
      cases h
    | some text =>
      rw [htext] at h
      obtain ⟨rfl, hheight⟩ := term_within_eq_ok.mp h
      exact .quoted hkind htext hheight
  | word =>
    obtain ⟨rfl, hheight⟩ := term_within_eq_ok.mp h
    exact .word hkind hheight

theorem pending_of_reads {item : Pending} (h : Reads config inner token item) :
    pending config inner token = .ok item := by
  cases h with
  | empty hkind hheight =>
    exact bind_eq_ok.mpr ⟨_, hkind, term_within_eq_ok.mpr ⟨rfl, hheight⟩⟩
  | not hkind => exact bind_eq_ok.mpr ⟨_, hkind, rfl⟩
  | logic hkind hop =>
    refine bind_eq_ok.mpr ⟨_, hkind, ?_⟩
    simp only [hop]
    rfl
  | comparison hkind hsplit hleft hright hheight =>
    refine bind_eq_ok.mpr ⟨_, hkind, ?_⟩
    simp only [hsplit]
    refine bind_eq_ok.mpr ⟨_, hleft, bind_eq_ok.mpr ⟨_, hright, ?_⟩⟩
    exact term_within_eq_ok.mpr ⟨rfl, hheight⟩
  | call hkind hsplit hparts hargs harity hheight =>
    refine bind_eq_ok.mpr ⟨_, hkind, ?_⟩
    simp only [hsplit]
    refine bind_eq_ok.mpr ⟨_, hparts, bind_eq_ok.mpr ⟨_, mapM_eq_ok.mpr hargs, ?_⟩⟩
    refine bind_eq_ok.mpr ⟨(), Function.checkArity_eq_ok.mpr harity, ?_⟩
    exact term_within_eq_ok.mpr ⟨rfl, hheight⟩
  | quoted hkind htext hheight =>
    refine bind_eq_ok.mpr ⟨_, hkind, ?_⟩
    simp only [htext]
    exact term_within_eq_ok.mpr ⟨rfl, hheight⟩
  | word hkind hheight =>
    exact bind_eq_ok.mpr ⟨_, hkind, term_within_eq_ok.mpr ⟨rfl, hheight⟩⟩

theorem Reads.unique {a b : Pending} (ha : Reads config inner token a)
    (hb : Reads config inner token b) : a = b :=
  Except.ok.inj ((pending_of_reads ha).symm.trans (pending_of_reads hb))

/-- What is read stays the same when more queries can be built inside. -/
theorem Reads.imp {inner' : List Char → Except QueryError Built}
    (hinner : ∀ text built, inner text = .ok built → inner' text = .ok built) {item : Pending}
    (h : Reads config inner token item) : Reads config inner' token item := by
  cases h with
  | empty hkind hheight => exact .empty hkind hheight
  | not hkind => exact .not hkind
  | logic hkind hop => exact .logic hkind hop
  | comparison hkind hsplit hleft hright hheight =>
    exact .comparison hkind hsplit (hinner _ _ hleft) (hinner _ _ hright) hheight
  | call hkind hsplit hparts hargs harity hheight =>
    exact .call hkind hsplit hparts (hargs.imp hinner) harity hheight
  | quoted hkind htext hheight => exact .quoted hkind htext hheight
  | word hkind hheight => exact .word hkind hheight

theorem tokens_eq_ok {text : List Char} {parts : List (List Char)} :
    tokens text = .ok parts ↔ (top.run text).quoted = false ∧
      ∃ pieces, splitAt [' '] (tidy text) = .ok pieces ∧
        parts = if pieces = [] then [[]] else pieces := by
  rw [tokens, bind_eq_ok]
  constructor
  · intro h
    obtain ⟨out, hout, h⟩ := h
    obtain ⟨hquoted, rfl⟩ := normalize_eq_ok.mp hout
    obtain ⟨pieces, hpieces, h⟩ := bind_eq_ok.mp h
    refine ⟨hquoted, pieces, hpieces, ?_⟩
    cases pieces with
    | nil => exact (Except.ok.inj h).symm
    | cons first rest => exact (Except.ok.inj h).symm
  · intro h
    obtain ⟨hquoted, pieces, hpieces, rfl⟩ := h
    refine ⟨_, normalize_eq_ok.mpr ⟨hquoted, rfl⟩, bind_eq_ok.mpr ⟨pieces, hpieces, ?_⟩⟩
    cases pieces with
    | nil => rfl
    | cons first rest => rfl

theorem balanced_of_tokens {text : List Char} {parts : List (List Char)}
    (h : tokens text = .ok parts) : ∀ token ∈ parts, Balanced token := by
  obtain ⟨-, pieces, hpieces, rfl⟩ := tokens_eq_ok.mp h
  intro token htoken
  split at htoken
  · rw [List.mem_singleton.mp htoken]
    exact balanced_of_run? rfl
  · exact balanced_of_mem_splitAt (List.cons_ne_nil _ _) hpieces token htoken

theorem exists_tokens_iff {text : List Char} :
    (∃ parts, tokens text = .ok parts) ↔ Balanced text := by
  have hspace : ∀ c ∈ [' '], Mark.ofChar c = .neutral := by decide
  rw [← balanced_tidy, ← exists_splitAt_iff (List.cons_ne_nil _ _) hspace]
  constructor
  · intro h
    obtain ⟨parts, hparts⟩ := h
    obtain ⟨-, pieces, hpieces, -⟩ := tokens_eq_ok.mp hparts
    exact ⟨pieces, hpieces⟩
  · intro h
    obtain ⟨pieces, hpieces⟩ := h
    have hbalanced := (exists_splitAt_iff (List.cons_ne_nil _ _) hspace).mp ⟨pieces, hpieces⟩
    exact ⟨_, tokens_eq_ok.mpr ⟨(balanced_tidy.mp hbalanced).quoted, pieces, hpieces, rfl⟩⟩

/-! ### Roots -/

def rootOf (terms : List Built) : Built :=
  ⟨.root (terms.map (·.node)), tallest terms + 1⟩

theorem buildFrom_eq_ok {levels : Nat} {text : List Char} {built : Built} :
    buildFrom config (levels + 1) text = .ok built ↔
      ∃ parts items terms, tokens text = .ok parts ∧
        List.Forall₂ (Reads config (buildFrom config levels)) parts items ∧
        fold (heightLimit config) items = .ok terms ∧
        built = rootOf terms ∧ tallest terms + 1 ≤ heightLimit config := by
  rw [buildFrom, bind_eq_ok]
  constructor
  · intro h
    obtain ⟨parts, hparts, h⟩ := h
    obtain ⟨items, hitems, h⟩ := bind_eq_ok.mp h
    obtain ⟨terms, hterms, h⟩ := bind_eq_ok.mp h
    obtain ⟨rfl, hheight⟩ := Built.within_eq_ok.mp h
    refine ⟨parts, items, terms, hparts, ?_, hterms, rfl, hheight⟩
    exact (mapM_eq_ok.mp hitems).imp fun _ _ => reads_of_pending
  · intro h
    obtain ⟨parts, items, terms, hparts, hitems, hterms, rfl, hheight⟩ := h
    refine ⟨parts, hparts, bind_eq_ok.mpr ⟨items, ?_, bind_eq_ok.mpr ⟨terms, hterms, ?_⟩⟩⟩
    · exact mapM_eq_ok.mpr (hitems.imp fun _ _ => pending_of_reads)
    · exact Built.within_eq_ok.mpr ⟨rfl, hheight⟩

theorem buildFrom_succ {levels : Nat} {text : List Char} {built : Built}
    (h : buildFrom config levels text = .ok built) :
    buildFrom config (levels + 1) text = .ok built := by
  induction levels generalizing text built with
  | zero => cases h
  | succ levels ih =>
    obtain ⟨parts, items, terms, hparts, hitems, hrest⟩ := buildFrom_eq_ok.mp h
    have hitems' := hitems.imp fun _ _ hitem => hitem.imp fun _ _ => ih
    exact buildFrom_eq_ok.mpr ⟨parts, items, terms, hparts, hitems', hrest⟩

end RowSearch.Query
