import Bluespec.Proofs.RejectedLeaves

/-!
# Rejected leaves inside blocks and conditionals

A leaf that a dialect does not permit fails like any other problem: a block reads on behind it, but a conditional fails
with its branch.  So each rejected leaf is reported once, and nothing else is, as long as the first of two branches does
not fail.

* **`PredicateText`** — a text that is read as a predicate.
* **`LeafTree`** — blocks and conditionals over leaves, on lines of their own; **`LeafTree.fails`** — whether the
  statement fails with a leaf of it.
* **`LeafTree.Regular`** — no statement of a block goes on with the one before it, and no first branch of two fails or
  takes the `else`.
* **`LeafTree.Comes`**, **`LeafTree.Regular.comes`** — all tokens are read, and each rejected leaf is reported.
* **`rejected_leaves`** — the diagnostics of the whole are those of its rejected leaves, in their order.
* **`rejected_leaf_before_else`** — the `else` behind a rejected first branch is reported as well.
-/

namespace Bluespec

open Bluespec.Parser

/-! ## Predicates -/

/-- A text that is read as a predicate. -/
structure PredicateText where
  /-- The text, with its parentheses. -/
  text : String
  /-- The predicate. -/
  predicate : Predicate
  /-- The text is read as the predicate. -/
  read : parseOnly Grammar.full.parenPredicate .invalidExpression text = .ok predicate

namespace PredicateText

variable (x : PredicateText)

theorem lexical : LexicalError.ofText x.text = [] := (parseOnly_eq_ok.mp x.read).1

/-- A predicate is read wherever it stands. -/
theorem comesTo {c : Setting} (hc : c.recovery = .collectAll) (offset : Nat) (cs rest : List Token) (ds : List Diagnostic) :
    ComesTo c Grammar.full.parenPredicate cs (Token.onLines offset [x.text]) ds (some (x.predicate.move (· + offset))) ds
      rest := by
  have hgoes : Goes Grammar.full.parenPredicate cs ((Token.significant x.text).map (Token.move (· + offset)))
      (x.predicate.move (· + offset)) rest :=
    goes_of_parseOnly (fun tokens n => (inner_full tokens n).parenPredicate)
      (Grammar.Tracked.full (.shift offset)).parenPredicate x.read cs rest trivial
  rw [Token.onLines_singleton]
  exact hgoes.comesTo (.inl hc) fun hc s => runsAbove_parenPredicate hc s

end PredicateText

/-! ## Trees of statements -/

/-- Blocks and conditionals over leaves that a dialect accepts or rejects. -/
inductive LeafTree (dialect : Dialect)
  | accepted (x : StmtText dialect)
  | rejected (x : RejectedLeaf dialect)
  | block (xs : List (LeafTree dialect))
  | ifThen (predicate : PredicateText) (a : LeafTree dialect)
  | ifElse (predicate : PredicateText) (a b : LeafTree dialect)

namespace LeafTree

variable {dialect : Dialect}

mutual

/-- The lines of the statement: each word, each predicate and each leaf stands on a line of its own. -/
def lines : LeafTree dialect → List String
  | accepted x => [x.text]
  | rejected x => [x.text]
  | block xs => ["begin"] ++ (linesOf xs ++ ["end"])
  | ifThen predicate a => ["if", predicate.text] ++ a.lines
  | ifElse predicate a b => ["if", predicate.text] ++ (a.lines ++ (["else"] ++ b.lines))

/-- The lines of statements in a row. -/
def linesOf : List (LeafTree dialect) → List String
  | [] => []
  | x :: xs => x.lines ++ linesOf xs

end

/-- The text of the statement. -/
def text (t : LeafTree dialect) : String := "\n".intercalate t.lines

mutual

/-- The rejected leaves of the statement at an offset, each with its own place, in the order of the text. -/
def rejectedAt (offset : Nat) : LeafTree dialect → List (Nat × RejectedLeaf dialect)
  | accepted _ => []
  | rejected x => [(offset, x)]
  | block xs => rejectedIn (offset + linesSize ["begin"]) xs
  | ifThen predicate a => a.rejectedAt (offset + linesSize ["if", predicate.text])
  | ifElse predicate a b =>
    a.rejectedAt (offset + linesSize ["if", predicate.text]) ++
      b.rejectedAt (offset + linesSize ["if", predicate.text] + linesSize a.lines + linesSize ["else"])

/-- The rejected leaves of statements in a row. -/
def rejectedIn (offset : Nat) : List (LeafTree dialect) → List (Nat × RejectedLeaf dialect)
  | [] => []
  | x :: xs => x.rejectedAt offset ++ rejectedIn (offset + linesSize x.lines) xs

end

/-- What is said about leaves, each at its place. -/
def reports (xs : List (Nat × RejectedLeaf dialect)) : List Diagnostic := xs.map fun (k, x) => x.diagnostic.move (· + k)

/-- Whether the statement fails with a leaf of it.  A block does not. -/
def fails : LeafTree dialect → Bool
  | accepted _ => false
  | rejected _ => true
  | block _ => false
  | ifThen _ a => a.fails
  | ifElse _ a b => a.fails || b.fails

/-- Whether the text of the statement ends where its last expression does. -/
def endsBare : LeafTree dialect → Bool
  | accepted x => x.stmt.endsBare
  | rejected x => x.leaf.endsBare
  | block _ => false
  | ifThen _ a => a.endsBare
  | ifElse _ _ b => b.endsBare

/-- Whether an `else` behind the statement would belong to it. -/
def isOpen : LeafTree dialect → Bool
  | accepted x => x.stmt.isOpen
  | rejected _ => false
  | block _ => false
  | ifThen _ _ => true
  | ifElse _ _ b => b.isOpen

/-- The second statement does not continue the first one: if that ends with an action block and without a semicolon,
then no parenthesis comes next. -/
def Separate (x y : LeafTree dialect) : Prop :=
  x.endsBare = true → ∀ t ∈ (Token.significant y.text).head?, t.kind ≠ .punct .lparen

/-- In every block no statement continues the one before it, and no first branch of two fails or takes the `else`. -/
inductive Regular : LeafTree dialect → Prop
  | accepted (x : StmtText dialect) : Regular (accepted x)
  | rejected (x : RejectedLeaf dialect) : Regular (rejected x)
  | block {xs : List (LeafTree dialect)} (each : ∀ x ∈ xs, Regular x) (chain : xs.IsChain Separate) : Regular (block xs)
  | ifThen (predicate : PredicateText) {a : LeafTree dialect} (first : Regular a) : Regular (ifThen predicate a)
  | ifElse (predicate : PredicateText) {a b : LeafTree dialect} (first : Regular a) (reads : a.fails = false)
      (closed : a.isOpen = false) (second : Regular b) : Regular (ifElse predicate a b)

/-! ## Tokens -/

theorem linesOf_eq (xs : List (LeafTree dialect)) : linesOf xs = xs.flatMap lines := by
  induction xs with
  | nil => rfl
  | cons x xs ih => rw [linesOf, ih, List.flatMap_cons]

theorem reports_append (xs ys : List (Nat × RejectedLeaf dialect)) (ds : List Diagnostic) :
    (reports (xs ++ ys)).reverse ++ ds = (reports ys).reverse ++ ((reports xs).reverse ++ ds) := by
  rw [reports, List.map_append, List.reverse_append, List.append_assoc]
  rfl

/-- The first token of the text begins a statement. -/
theorem starts (t : LeafTree dialect) (offset : Nat) :
    ∃ u us, Token.onLines offset t.lines = u :: us ∧ u.kind.startsNoStmt = false := by
  cases t with
  | accepted x => exact (Token.onLines_singleton offset x.text).symm ▸ x.starts offset
  | rejected x => exact (Token.onLines_singleton offset x.text).symm ▸ x.starts offset
  | block xs => exact ⟨_, _, rfl, rfl⟩
  | ifThen predicate a => exact ⟨_, _, rfl, rfl⟩
  | ifElse predicate a b => exact ⟨_, _, rfl, rfl⟩

namespace Regular

variable {t : LeafTree dialect}

theorem lexical (h : t.Regular) : ∀ line ∈ t.lines, LexicalError.ofText line = [] := by
  have hword : ∀ word, LexicalError.ofText word = [] → ∀ line ∈ [word], LexicalError.ofText line = [] :=
    fun _ h => List.forall_mem_singleton.mpr h
  have hhead : ∀ predicate : PredicateText, ∀ line ∈ ["if", predicate.text], LexicalError.ofText line = [] :=
    fun predicate => List.forall_mem_cons.mpr ⟨rfl, hword _ predicate.lexical⟩
  induction h with
  | accepted x => exact List.forall_mem_singleton.mpr x.lexical
  | rejected x => exact List.forall_mem_singleton.mpr x.lexical
  | @block xs _ _ ih =>
    have hall : ∀ line ∈ linesOf xs, LexicalError.ofText line = [] := by
      intro line hline
      rw [linesOf_eq] at hline
      obtain ⟨x, hx, hline⟩ := List.mem_flatMap.mp hline
      exact ih x hx line hline
    exact List.forall_mem_append.mpr ⟨hword _ rfl, List.forall_mem_append.mpr ⟨hall, hword _ rfl⟩⟩
  | ifThen predicate _ ih => exact List.forall_mem_append.mpr ⟨hhead predicate, ih⟩
  | ifElse predicate _ _ _ _ iha ihb =>
    exact List.forall_mem_append.mpr ⟨hhead predicate, List.forall_mem_append.mpr
      ⟨iha, List.forall_mem_append.mpr ⟨hword _ rfl, ihb⟩⟩⟩

/-- The text of the statement begins as its lines do, wherever these stand. -/
theorem kind_first (h : t.Regular) {offset : Nat} {u : Token} {us : List Token}
    (hlines : Token.onLines offset t.lines = u :: us) : u.kind ∈ (Token.significant t.text).head?.map Token.kind := by
  have hkinds := Token.kinds_onLines 0 offset t.lines
  rw [← (Token.significant_lines h.lexical).1, hlines] at hkinds
  rw [← List.head?_map, text, hkinds]
  rfl

/-- A statement that fails ends with the leaf that it fails with. -/
theorem ended (h : t.Regular) (hfails : t.fails = true) (offset : Nat) :
    endsAtBoundary (Token.onLines offset t.lines).reverse = true := by
  have hbehind : ∀ ts {us : List Token}, endsAtBoundary us.reverse = true → endsAtBoundary (ts ++ us).reverse = true := by
    intro ts us hus
    rw [List.reverse_append]
    exact endsAtBoundary_append hus _
  induction h generalizing offset with
  | accepted x => cases hfails
  | rejected x =>
    have hmoved : (Token.onLines offset [x.text]).reverse =
        (Token.significant x.text).reverse.map (Token.move (· + offset)) := by
      rw [Token.onLines_singleton, List.map_reverse]
    rw [lines, hmoved, CountsKinds.endsAtBoundary]
    exact x.ended
  | block _ _ _ => cases hfails
  | ifThen _ _ ih =>
    rw [lines, Token.onLines_append]
    exact hbehind _ (ih hfails _)
  | ifElse _ _ hreads _ _ _ ih =>
    rw [fails, hreads, Bool.false_or] at hfails
    rw [lines, Token.onLines_append, Token.onLines_append, Token.onLines_append]
    exact hbehind _ (hbehind _ (hbehind _ (ih hfails _)))

/-- A statement that fails has a rejected leaf. -/
theorem rejectedAt_ne_nil (h : t.Regular) (hfails : t.fails = true) (offset : Nat) : t.rejectedAt offset ≠ [] := by
  induction h generalizing offset with
  | accepted x => cases hfails
  | rejected x => exact List.cons_ne_nil _ _
  | block _ _ _ => cases hfails
  | ifThen _ _ ih => exact ih hfails _
  | ifElse _ _ hreads _ _ _ ih =>
    rw [fails, hreads, Bool.false_or] at hfails
    exact List.append_ne_nil_of_right_ne_nil _ (ih hfails _)

end Regular

/-! ## Places -/

/-- Leaves stand one behind the other between two places. -/
structure Placed (lo hi : Nat) (xs : List (Nat × RejectedLeaf dialect)) : Prop where
  between : ∀ p ∈ xs, lo ≤ p.1 ∧ p.1 + Text.byteSize p.2.text.toList ≤ hi
  ordered : xs.Pairwise fun p q => p.1 + Text.byteSize p.2.text.toList ≤ q.1

namespace Placed

variable {lo lo' mid hi hi' : Nat} {xs ys : List (Nat × RejectedLeaf dialect)}

theorem nil : Placed lo hi ([] : List (Nat × RejectedLeaf dialect)) :=
  ⟨fun _ hp => absurd hp List.not_mem_nil, .nil⟩

theorem weaken (h : Placed lo hi xs) (hlo : lo' ≤ lo) (hhi : hi ≤ hi') : Placed lo' hi' xs :=
  ⟨fun p hp => ⟨hlo.trans (h.between p hp).1, (h.between p hp).2.trans hhi⟩, h.ordered⟩

theorem append (h : Placed lo mid xs) (h' : Placed mid hi ys) (hlo : lo ≤ mid) (hhi : mid ≤ hi) :
    Placed lo hi (xs ++ ys) := by
  refine ⟨List.forall_mem_append.mpr ⟨(h.weaken (Nat.le_refl lo) hhi).between, (h'.weaken hlo (Nat.le_refl hi)).between⟩, ?_⟩
  exact List.pairwise_append.mpr ⟨h.ordered, h'.ordered, fun p hp q hq => (h.between p hp).2.trans (h'.between q hq).1⟩

/-- What is said about leaves in a row is said in the order of its places. -/
theorem sorted (h : Placed lo hi xs) : Diagnostic.sortByStart (reports xs) = reports xs := by
  have hstarts : (reports xs).Pairwise fun d d' => d.span.start ≤ d'.span.start := by
    refine List.pairwise_map.mpr (h.ordered.imp ?_)
    rintro ⟨k, x⟩ ⟨k', x'⟩ hle
    have hstart := x.start_le
    show x.diagnostic.span.start + k ≤ x'.diagnostic.span.start + k'
    simp only at hle
    omega
  exact List.mergeSort_of_pairwise (hstarts.imp fun hle => decide_eq_true hle)

end Placed

/-- The rejected leaves of statements in a row stand in their lines if those of each one do. -/
theorem placed_row {xs : List (LeafTree dialect)}
    (h : ∀ x ∈ xs, ∀ offset, Placed offset (offset + linesSize x.lines) (x.rejectedAt offset)) (offset : Nat) :
    Placed offset (offset + linesSize (linesOf xs)) (rejectedIn offset xs) := by
  induction xs generalizing offset with
  | nil => exact .nil
  | cons x xs ih =>
    obtain ⟨hx, hothers⟩ := List.forall_mem_cons.mp h
    have hlater := ih hothers (offset + linesSize x.lines)
    rw [linesOf, linesSize_append, ← Nat.add_assoc]
    exact (hx offset).append hlater (Nat.le_add_right _ _) (Nat.le_add_right _ _)

/-- The rejected leaves stand in the lines of the statement. -/
theorem Regular.placed {t : LeafTree dialect} (h : t.Regular) (offset : Nat) :
    Placed offset (offset + linesSize t.lines) (t.rejectedAt offset) := by
  induction h generalizing offset with
  | accepted x => exact .nil
  | rejected x =>
    have hend : offset + Text.byteSize x.text.toList ≤ offset + linesSize [x.text] := by
      rw [linesSize, linesSize]
      omega
    exact ⟨List.forall_mem_singleton.mpr ⟨Nat.le_refl _, hend⟩, List.pairwise_singleton _ _⟩
  | @block xs _ _ ih =>
    have hsize : linesSize (LeafTree.block xs).lines =
        linesSize ["begin"] + (linesSize (linesOf xs) + linesSize ["end"]) := by
      rw [lines, linesSize_append, linesSize_append]
    exact (placed_row ih _).weaken (Nat.le_add_right _ _) (by omega)
  | ifThen predicate _ ih =>
    rw [lines, linesSize_append, ← Nat.add_assoc]
    exact (ih _).weaken (Nat.le_add_right _ _) (Nat.le_refl _)
  | @ifElse predicate a b _ _ _ _ iha ihb =>
    have hsize : linesSize (LeafTree.ifElse predicate a b).lines =
        linesSize ["if", predicate.text] + (linesSize a.lines + (linesSize ["else"] + linesSize b.lines)) := by
      rw [lines, linesSize_append, linesSize_append, linesSize_append]
    have hfirst := (iha (offset + linesSize ["if", predicate.text])).weaken (Nat.le_add_right offset _)
      (Nat.le_add_right _ (linesSize ["else"]))
    have hboth := hfirst.append (ihb _) (by omega) (Nat.le_add_right _ _)
    exact hboth.weaken (Nat.le_refl _) (by omega)

/-! ## Runs -/

/-- All tokens of the statement are read and its rejected leaves are reported, wherever it stands in front of what does
not continue it. -/
def Comes (c : Setting) (t : LeafTree dialect) : Prop :=
  ∀ (offset : Nat) (cs : List Token) (ds : List Diagnostic) {rest : List Token}, EndsBefore t.endsBare t.isOpen rest →
    ∃ r : Option Stmt, r.isSome = !t.fails ∧
      ComesTo c (Grammar.full.innerStmt dialect) cs (Token.onLines offset t.lines) ds r
        ((reports (t.rejectedAt offset)).reverse ++ ds) rest

/-- A statement fails if its form does. -/
theorem comesTo_of_form {c : Setting} {cs ts rest : List Token} {ds ds' : List Diagnostic} {t : Token}
    {form : Option StmtForm} (ht : t.kind ≠ .punct .attrOpen)
    (h : ComesTo c (Grammar.full.stmtForm dialect) cs (t :: ts) ds form ds' rest) :
    ∃ r : Option Stmt, r.isSome = form.isSome ∧
      ComesTo c (Grammar.full.innerStmt dialect) cs (t :: ts) ds r ds' rest := by
  have hlacks : Lacks (.punct .attrOpen) (t :: ts ++ rest) := .cons rfl ht _
  rw [Grammar.innerStmt_eq]
  cases form with
  | none => exact ⟨none, rfl, .skipAttributes hlacks (.offset h.failed)⟩
  | some form => exact ⟨some _, rfl, .skipAttributes hlacks (.offset (h.then_ (ComesTo.spanFrom.then_ .value)))⟩

/-- What is read of a conditional behind its predicate. -/
def branches (dialect : Dialect) (p : Predicate) : Parser StmtForm := do
  let a ← Grammar.full.innerStmt dialect
  let b ← if ← accept (.keyword .else_) then some <$> Grammar.full.innerStmt dialect else pure none
  return .cond p a b

theorem ifStmt_eq : Grammar.full.ifStmt dialect = (do
    skip
    let p ← Grammar.full.parenPredicate
    branches dialect p) := rfl

section Runs

variable {c : Setting} (offset : Nat) (cs : List Token) (ds : List Diagnostic) {rest : List Token}

/-- A conditional with one branch fails if that does. -/
theorem comesTo_one {a : LeafTree dialect} (ha : a.Comes c) (p : Predicate) (hrest : EndsBefore a.endsBare true rest) :
    ∃ form : Option StmtForm, form.isSome = !a.fails ∧
      ComesTo c (branches dialect p) cs (Token.onLines offset a.lines) ds form
        ((reports (a.rejectedAt offset)).reverse ++ ds) rest := by
  have helse : Lacks (.keyword .else_) rest := fun t ht => (hrest t ht).1.2.2 rfl
  obtain ⟨r, hr, hread⟩ := ha offset cs ds hrest.of_open
  cases r with
  | none => exact ⟨none, hr, hread.failed⟩
  | some st => exact ⟨some (.cond p st none), hr, hread.then_ ((ComesTo.accept_of_lacks helse).then_ .value)⟩

/-- A conditional with two branches, the first of which is read, fails if the second one does. -/
theorem comesTo_both {a b : LeafTree dialect} (ha : a.Comes c) (hb : b.Comes c) (hreads : a.fails = false)
    (hclosed : a.isOpen = false) (p : Predicate) (hrest : EndsBefore b.endsBare b.isOpen rest) :
    ∃ form : Option StmtForm, form.isSome = !b.fails ∧
      ComesTo c (branches dialect p) cs (Token.onLines offset (a.lines ++ (["else"] ++ b.lines))) ds form
        ((reports (a.rejectedAt offset ++
          b.rejectedAt (offset + linesSize a.lines + linesSize ["else"]))).reverse ++ ds) rest := by
  let word := Token.move (· + (offset + linesSize a.lines)) ⟨.keyword .else_, "else", ⟨0, 4⟩⟩
  let second := Token.onLines (offset + linesSize a.lines + linesSize ["else"]) b.lines
  have hlines : Token.onLines offset (a.lines ++ (["else"] ++ b.lines)) =
      Token.onLines offset a.lines ++ word :: second := by
    rw [Token.onLines_append, Token.onLines_append]
    rfl
  -- The word goes on with no statement but an open one.
  have hbefore : EndsBefore a.endsBare a.isOpen (word :: second ++ rest) := by
    rw [hclosed]
    rintro _ ⟨⟩
    exact ⟨⟨nofun, nofun, nofun⟩, fun _ => rfl⟩
  obtain ⟨r, hr, hfirst⟩ := ha offset cs ds hbefore
  obtain ⟨st, rfl⟩ := Option.isSome_iff_exists.mp (hr.trans (by rw [hreads]; rfl))
  obtain ⟨r', hr', hsecond⟩ := hb (offset + linesSize a.lines + linesSize ["else"])
    (word :: ((Token.onLines offset a.lines).reverse ++ cs)) ((reports (a.rejectedAt offset)).reverse ++ ds) hrest
  rw [hlines, reports_append]
  cases r' with
  | none => exact ⟨none, hr', hfirst.bind (.cons (.accept rfl) hsecond.failed.failed)⟩
  | some st' =>
    have hsome : ComesTo c (some <$> Grammar.full.innerStmt dialect) _ second _ (some (some st')) _ rest :=
      hsecond.then_ .value
    exact ⟨some (.cond p st (some st')), hr', hfirst.bind (.cons (.accept rfl) (hsome.then_ .value))⟩

variable (hc : c.recovery = .collectAll)

include hc

theorem comes_accepted (x : StmtText dialect) : Comes c (accepted x) := by
  intro offset cs ds rest hrest
  have hstops : StmtStops (x.stmt.move (· + offset)) rest := EndsBefore.stmtStops hrest offset
  refine ⟨some (x.stmt.move (· + offset)), rfl, ?_⟩
  rw [lines, Token.onLines_singleton]
  exact (Stmt.goes_of_parseStatement x.read offset cs hstops).comesTo (.inl hc) (runsAbove_innerStmt dialect)

theorem comes_rejected (x : RejectedLeaf dialect) : Comes c (rejected x) := by
  intro offset cs ds rest hrest
  refine ⟨none, rfl, ?_⟩
  rw [lines, Token.onLines_singleton]
  exact x.comesTo offset cs hrest (.inl hc)

/-- Statements in a row are read one after the other: behind one that has failed nothing is skipped. -/
theorem loops_onLines {xs : List (LeafTree dialect)} (hcomes : ∀ x ∈ xs, x.Comes c) (hregular : ∀ x ∈ xs, x.Regular)
    (hchain : xs.IsChain Separate) (hrest : Closing rest) :
    ∃ as, Loops c (Grammar.full.innerStmt dialect) cs (Token.onLines offset (linesOf xs)) ds as
      ((reports (rejectedIn offset xs)).reverse ++ ds) rest := by
  induction xs generalizing offset cs ds with
  | nil => exact ⟨[], .nil⟩
  | cons x xs ih =>
    obtain ⟨hx, hothers⟩ := List.forall_mem_cons.mp hcomes
    obtain ⟨hregular, hregulars⟩ := List.forall_mem_cons.mp hregular
    have hbefore : EndsBefore x.endsBare x.isOpen (Token.onLines (offset + linesSize x.lines) (linesOf xs) ++ rest) := by
      cases xs with
      | nil => exact .closing hrest
      | cons y ys =>
        obtain ⟨t, us, hcons, ht⟩ := y.starts (offset + linesSize x.lines)
        have hfirst := (hregulars y List.mem_cons_self).kind_first hcons
        rw [linesOf, Token.onLines_append, hcons]
        refine EndsBefore.of_starts ht (fun hbare => ?_) _
        obtain ⟨t', ht', hkind⟩ := Option.map_eq_some_iff.mp hfirst
        exact hkind ▸ hchain.rel hbare t' ht'
    obtain ⟨r, hr, hread⟩ := hx offset cs ds hbefore
    obtain ⟨as, hlater⟩ := ih (offset + linesSize x.lines) ((Token.onLines offset x.lines).reverse ++ cs)
      ((reports (x.rejectedAt offset)).reverse ++ ds) hothers hregulars hchain.tail
    obtain ⟨t, us, hcons, ht⟩ := x.starts offset
    have hfirst : Loops c (Grammar.full.innerStmt dialect) cs (Token.onLines offset x.lines) ds r.toList
        ((reports (x.rejectedAt offset)).reverse ++ ds)
        (Token.onLines (offset + linesSize x.lines) (linesOf xs) ++ rest) := by
      rw [hcons] at hread ⊢
      cases r with
      | some a => exact .read (.inl hc) (Kind.not_isCloser_of_starts ht) hread
      | none =>
        -- Behind the leaf that the statement has failed with nothing is skipped.
        have hfails : x.fails = true := by simpa using hr.symm
        have hended := endsAtBoundary_append (hregular.ended hfails offset) cs
        rw [hcons] at hended
        exact .failed (.inl hc) (Kind.not_isCloser_of_starts ht) hread (.inl hended)
    refine ⟨r.toList ++ as, ?_⟩
    rw [linesOf, Token.onLines_append, rejectedIn, reports_append]
    exact hfirst.append hlater

/-- A block is read whatever its statements are: those that fail are left out. -/
theorem comes_block {xs : List (LeafTree dialect)} (hcomes : ∀ x ∈ xs, x.Comes c) (hregular : ∀ x ∈ xs, x.Regular)
    (hchain : xs.IsChain Separate) : Comes c (block xs) := by
  intro offset cs ds rest hrest
  let place := offset + linesSize ["begin"]
  let opening := Token.move (· + offset) ⟨.keyword .begin, "begin", ⟨0, 5⟩⟩
  let closing := Token.move (· + (place + linesSize (linesOf xs))) ⟨.keyword .end_, "end", ⟨0, 3⟩⟩
  have hlines : Token.onLines offset (block xs).lines = opening :: (Token.onLines place (linesOf xs) ++ [closing]) := by
    rw [lines, Token.onLines_append, Token.onLines_append]
    rfl
  have hclosing : Closing (closing :: rest) := by
    rintro _ ⟨⟩
    rfl
  have hunlabelled : Lacks (.punct .colon) (Token.onLines place (linesOf xs) ++ closing :: rest) := by
    cases xs with
    | nil => exact .cons (show closing.kind = .keyword .end_ from rfl) (by decide) _
    | cons x xs =>
      obtain ⟨t, us, hcons, ht⟩ := x.starts place
      rw [linesOf, Token.onLines_append, hcons]
      exact .of_starts ht _
  have hend : Lacks (.punct .colon) rest := fun t ht => (hrest t ht).1.1
  obtain ⟨as, hloops⟩ := loops_onLines place (opening :: cs) ds hc hcomes hregular hchain hclosing
  have hblock := Grammar.comesTo_block rfl rfl hunlabelled hend (hloops.items hclosing)
  have hform : ComesTo c (Grammar.full.stmtForm dialect) cs (opening :: (Token.onLines place (linesOf xs) ++ [closing])) ds
      (some (.block _)) ((reports (rejectedIn place xs)).reverse ++ ds) rest := .peek (hblock.then_ .value)
  rw [hlines]
  exact comesTo_of_form (show (Kind.keyword .begin) ≠ _ by decide) hform

/-- A conditional fails if its branches do. -/
theorem comesTo_if (predicate : PredicateText) {ts : List Token} {ds' : List Diagnostic} {form : Option StmtForm}
    (h : ComesTo c (branches dialect (predicate.predicate.move (· + (offset + linesSize ["if"]))))
      ((Token.onLines offset ["if", predicate.text]).reverse ++ cs) ts ds form ds' rest) :
    ∃ r : Option Stmt, r.isSome = form.isSome ∧
      ComesTo c (Grammar.full.innerStmt dialect) cs (Token.onLines offset ["if", predicate.text] ++ ts) ds r ds' rest := by
  let word := Token.move (· + offset) ⟨.keyword .if_, "if", ⟨0, 2⟩⟩
  have hhead : Token.onLines offset ["if", predicate.text] =
      word :: Token.onLines (offset + linesSize ["if"]) [predicate.text] := rfl
  rw [hhead] at h ⊢
  rw [List.reverse_cons, List.append_assoc] at h
  have hif : ComesTo c (Grammar.full.ifStmt dialect) cs
      (word :: (Token.onLines (offset + linesSize ["if"]) [predicate.text] ++ ts)) ds form ds' rest := by
    rw [ifStmt_eq]
    exact .cons .skip ((predicate.comesTo hc _ _ _ _).bind h)
  exact comesTo_of_form (show (Kind.keyword .if_) ≠ _ by decide) (.peek hif)

theorem comes_ifThen (predicate : PredicateText) {a : LeafTree dialect} (ha : a.Comes c) : Comes c (ifThen predicate a) := by
  intro offset cs ds rest hrest
  obtain ⟨form, hform, hbranch⟩ := comesTo_one (offset + linesSize ["if", predicate.text])
    ((Token.onLines offset ["if", predicate.text]).reverse ++ cs) ds ha _ hrest
  obtain ⟨r, hr, hif⟩ := comesTo_if offset cs ds hc predicate hbranch
  rw [lines, Token.onLines_append]
  exact ⟨r, hr.trans hform, hif⟩

theorem comes_ifElse (predicate : PredicateText) {a b : LeafTree dialect} (ha : a.Comes c) (hb : b.Comes c)
    (hreads : a.fails = false) (hclosed : a.isOpen = false) : Comes c (ifElse predicate a b) := by
  intro offset cs ds rest hrest
  obtain ⟨form, hform, hbranches⟩ := comesTo_both (offset + linesSize ["if", predicate.text])
    ((Token.onLines offset ["if", predicate.text]).reverse ++ cs) ds ha hb hreads hclosed _ hrest
  obtain ⟨r, hr, hif⟩ := comesTo_if offset cs ds hc predicate hbranches
  rw [lines, Token.onLines_append, fails, hreads, Bool.false_or]
  exact ⟨r, hr.trans hform, hif⟩

/-- All tokens of a regular statement are read and its rejected leaves are reported. -/
theorem Regular.comes {t : LeafTree dialect} (h : t.Regular) : t.Comes c := by
  induction h with
  | accepted x => exact comes_accepted hc x
  | rejected x => exact comes_rejected hc x
  | block each chain ih => exact comes_block hc ih each chain
  | ifThen predicate _ ih => exact comes_ifThen hc predicate ih
  | ifElse predicate _ reads closed _ iha ihb => exact comes_ifElse hc predicate iha ihb reads closed

end Runs

end LeafTree

open LeafTree in
/-- Blocks and conditionals over leaves, no first branch of which fails or takes the `else`: each leaf that the dialect
rejects is reported once, at its place, and nothing else is. -/
theorem rejected_leaves {dialect : Dialect} {t : LeafTree dialect} (h : t.Regular) :
    (t.rejectedAt 0 = [] → ∃ s, parseStatement dialect t.text = .ok s) ∧
      (t.rejectedAt 0 ≠ [] → parseStatement dialect t.text = .error (reports (t.rejectedAt 0))) := by
  obtain ⟨htokens, hlexical⟩ := Token.significant_lines h.lexical
  have hend : EndsBefore t.endsBare t.isOpen [] := nofun
  obtain ⟨r, hr, hrun⟩ := h.comes (c := .ofText t.text .collectAll) rfl 0 [] [] hend
  rw [← htokens, List.append_nil] at hrun
  refine ⟨fun hnone => ?_, fun hsome => ?_⟩
  · have hreads : t.fails = false := Bool.eq_false_iff.mpr fun hfails => h.rejectedAt_ne_nil hfails 0 hnone
    obtain ⟨s, rfl⟩ := Option.isSome_iff_exists.mp (hr.trans (by rw [hreads]; rfl))
    obtain ⟨ns, hread⟩ := hrun []
    rw [List.append_nil, hnone] at hread
    exact ⟨s, parseOnly_eq_ok.mpr ⟨hlexical, _, hread, rfl, rfl⟩⟩
  · have hreported : (reports (t.rejectedAt 0)).reverse ≠ [] := by
      rw [Ne, List.reverse_eq_nil_iff, reports, List.map_eq_nil_iff]
      exact hsome
    rw [← (h.placed 0).sorted, ← List.reverse_reverse (reports _)]
    exact parseOnly_of_comesTo hlexical hrun hreported

/-- A returned value, in an action block. -/
def RejectedLeaf.returned : RejectedLeaf .action where
  text := "return x;"
  diagnostic := ⟨.grammar (.leafNotPermitted .return_ .action), ⟨0, 6⟩⟩
  rejected := parseOnly_of_report rfl rfl
  leaf := .stmt ⟨.return_ ⟨.var "x", ⟨7, 8⟩⟩, ⟨0, 9⟩⟩ rfl rfl
  ended := rfl

/-- A call of a system task. -/
def RejectedLeaf.task : RejectedLeaf .action where
  text := "$display(x);"
  diagnostic := ⟨.unsupported .systemCall, ⟨0, 11⟩⟩
  rejected := parseOnly_of_report rfl rfl
  leaf := .task
    { name := ⟨.systemIdent, "$display", ⟨0, 8⟩⟩
      group := [⟨.punct .lparen, "(", ⟨8, 9⟩⟩, ⟨.ident, "x", ⟨9, 10⟩⟩, ⟨.punct .rparen, ")", ⟨10, 11⟩⟩]
      semi := ⟨.punct .semi, ";", ⟨11, 12⟩⟩
      isName := rfl
      isGroup := .inr ⟨_, _, rfl, rfl, rfl⟩
      isSemi := rfl } rfl rfl
  ended := rfl

/-- A name in parentheses. -/
def PredicateText.name : PredicateText := ⟨"(a)", ⟨[⟨.var "a", ⟨1, 2⟩⟩], ⟨1, 2⟩⟩, rfl⟩

/-- A block with a conditional whose second branch is rejected, and a rejected statement behind it. -/
def LeafTree.rejectedSecond : LeafTree .action :=
  .block [.ifElse .name (.accepted .plainCall) (.rejected .returned), .rejected .task]

/-- The rejected branch and the rejected statement are reported once each. -/
theorem rejected_leaves_second :
    LeafTree.rejectedSecond.Regular ∧
      parseStatement .action "begin\nif\n(a)\nf(x);\nelse\nreturn x;\n$display(x);\nend" =
        .error [⟨.grammar (.leafNotPermitted .return_ .action), ⟨24, 30⟩⟩, ⟨.unsupported .systemCall, ⟨34, 45⟩⟩] := by
  have hbranches : (LeafTree.ifElse .name (.accepted .plainCall) (.rejected .returned)).Regular :=
    .ifElse .name (.accepted .plainCall) rfl rfl (.rejected .returned)
  have hregular : LeafTree.rejectedSecond.Regular :=
    .block (List.forall_mem_cons.mpr ⟨hbranches, List.forall_mem_singleton.mpr (.rejected .task)⟩)
      (.cons_cons (fun hbare => by cases hbare) (.singleton _))
  exact ⟨hregular, (rejected_leaves hregular).2 (List.cons_ne_nil _ _)⟩

/-- A block with a conditional whose first branch is rejected. -/
def LeafTree.rejectedFirst : LeafTree .action :=
  .block [.ifElse .name (.rejected .returned) (.accepted .plainCall)]

/-- A rejected first branch costs the conditional its second one: the `else` in front of that is reported as well. -/
theorem rejected_leaf_before_else :
    LeafTree.reports (LeafTree.rejectedFirst.rejectedAt 0) =
        [⟨.grammar (.leafNotPermitted .return_ .action), ⟨13, 19⟩⟩] ∧
      parseStatement .action LeafTree.rejectedFirst.text =
        .error [⟨.grammar (.leafNotPermitted .return_ .action), ⟨13, 19⟩⟩,
          ⟨.grammar (.expected .expression (some (.keyword .else_))), ⟨23, 27⟩⟩] := by
  have htext : LeafTree.rejectedFirst.text = "begin\nif\n(a)\nreturn x;\nelse\nf(x);\nend" := rfl
  have hlexical : LexicalError.ofText "begin\nif\n(a)\nreturn x;\nelse\nf(x);\nend" = [] := by decide +kernel
  have hreported : ((Grammar.full.innerStmt .action >>= atEndOrReport)
      (.ofText "begin\nif\n(a)\nreturn x;\nelse\nf(x);\nend" .collectAll)
      (.ofText "begin\nif\n(a)\nreturn x;\nelse\nf(x);\nend")).2.diagnostics =
        [⟨.grammar (.expected .expression (some (.keyword .else_))), ⟨23, 27⟩⟩,
          ⟨.grammar (.leafNotPermitted .return_ .action), ⟨13, 19⟩⟩] := by
    decide +kernel
  refine ⟨rfl, ?_⟩
  rw [htext]
  refine (parseOnly_of_reports hlexical hreported (List.cons_ne_nil _ _)).trans (congrArg Except.error ?_)
  exact List.mergeSort_of_pairwise (by decide)

end Bluespec
