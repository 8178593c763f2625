import Bluespec.Proofs.ClosingWords
import Bluespec.Proofs.MemberTexts
import Bluespec.Proofs.ReportedUnits

/-!
# Constructs that are not closed

Modules, functions, rules and blocks inside each other, with other items in front of the inner ones, none of which is
closed, and closing words behind them.

* **`Enclosure`** — the words around items of one scope that stand in another one; **`Enclosure.answers`** reads what is
  between them.
* **`Lines`** — items on lines of their own.
* **`Unclosed`** — constructs inside each other that are not closed.
* **`Unclosed.parse_diagnostics`** — what is said about them and the closing words behind them.
* **`misplaced_closer`** — the same for one closing word, which is reported once for each construct that ends there.
-/

namespace Bluespec

open Bluespec.Parser

/-! ## Enclosures -/

/-- Where items stand. -/
inductive Scope
  /-- In a source. -/
  | package
  /-- In a module. -/
  | module
  /-- In a body or block of statements. -/
  | body (dialect : Dialect)

/-- What stands there. -/
def Scope.Item : Scope → Type
  | .package => PackageStmt
  | .module => ModuleStmt
  | .body _ => Stmt

/-- How it is read. -/
def Scope.item : (s : Scope) → Parser s.Item
  | .package => packageStmt
  | .module => Grammar.full.moduleStmt
  | .body dialect => Grammar.full.innerStmt dialect

/-- The words around items of one scope that stand in another one. -/
inductive Enclosure : Scope → Scope → Type
  | module (s : Scope) : Enclosure s .module
  | function (s : Scope) : Enclosure s (.body .functionBody)
  | rule : Enclosure .module (.body .action)
  | block (dialect : Dialect) : Enclosure (.body dialect) (.body dialect)

namespace Enclosure

variable {s s' : Scope}

/-- The word in front of the items. -/
def word : Enclosure s s' → Keyword
  | .module _ => .module
  | .function _ => .function
  | .rule => .rule
  | .block _ => .begin

/-- The kinds of the tokens between the word and the items. -/
def header : Enclosure s s' → List Kind
  | .module _ => [.ident, .punct .semi]
  | .function _ => [.typeIdent, .ident, .punct .semi]
  | .rule => [.ident, .punct .semi]
  | .block _ => []

/-- The word behind the items. -/
def closing : Enclosure s s' → Keyword
  | .module _ => .endmodule
  | .function _ => .endfunction
  | .rule => .endrule
  | .block _ => .end_

end Enclosure

/-- Whether a token of the kind opens or closes an enclosure. -/
def Kind.isEnclosing : Kind → Bool
  | .keyword .module | .keyword .function | .keyword .rule | .keyword .begin => true
  | k => k.isCloser

theorem Kind.ne_of_isEnclosing {k k' : Kind} (h : k.isEnclosing = true) (h' : k'.isEnclosing = false) : k ≠ k' := by
  rintro rfl
  exact Bool.false_ne_true (h'.symm.trans h)

/-- An enclosing word comes next, or nothing. -/
def AtEnclosing (rest : List Token) : Prop := ∀ t ∈ rest.head?, t.kind.isEnclosing = true

theorem AtEnclosing.lacks {rest : List Token} {k : Kind} (h : AtEnclosing rest) (hk : k.isEnclosing = false) :
    Lacks k rest :=
  fun t ht => Kind.ne_of_isEnclosing (h t ht) hk

/-- No statement goes on with an enclosing word. -/
theorem AtEnclosing.stmtStops {rest : List Token} (h : AtEnclosing rest) (s : Stmt) : StmtStops s rest := by
  intro t ht
  refine ⟨⟨h.lacks rfl t ht, h.lacks rfl t ht, fun _ => h.lacks rfl t ht⟩, fun _ => ?_⟩
  rw [← Bool.not_eq_true]
  intro hsuffix
  rcases Kind.eq_of_startsSuffix hsuffix with heq | heq | heq <;> exact Kind.ne_of_isEnclosing (h t ht) rfl heq

theorem Parser.Closing.atEnclosing {rest : List Token} (h : Closing rest) : AtEnclosing rest := by
  intro t ht
  have hk := h t ht
  unfold Kind.isEnclosing
  split <;> first | rfl | exact hk

/-! ## Items in enclosures -/

/-- Texts of items on lines of their own, none of which goes on with the one before it. -/
inductive Lines : Scope → Type
  | members (xs : List MemberText) : Lines .module
  | statements {dialect : Dialect} (xs : List (StmtText dialect)) (h : xs.IsChain StmtText.Separate) :
      Lines (.body dialect)

/-- Where no action block is permitted no statement begins with one. -/
theorem Grammar.noActionBlock_of_stmt {g : Grammar} {dialect : Dialect} {c : Setting} {s s' : State} {st : Stmt} {k : Kind}
    (hdialect : dialect.permits .actionBlock = false) (h : g.stmt dialect c s = (some st, s'))
    (hpeek : s.peek = some k) : k ≠ .keyword .action ∧ k ≠ .keyword .actionvalue := by
  have hblock : ∀ c s form s', g.actionStmt dialect c s ≠ (some form, s') := by
    have hresults : Results (fun _ => dialect.permits .actionBlock = true) (g.actionStmt dialect) :=
      .bind fun _ => .bind fun _ => .bind fun _ => permit_results.seq fun _ hpermits => .value hpermits
    intro c s form s' hrun
    exact Bool.false_ne_true (hdialect.symm.trans (hresults c s form s' hrun))
  rw [← not_or]
  intro hk
  have hlacks : Lacks (.punct .attrOpen) s.rest := by
    intro t ht hkind
    rw [State.peek, show s.rest.head? = some t from ht] at hpeek
    obtain rfl : t.kind = k := Option.some.inj hpeek
    rcases hk with hk | hk <;> cases hkind.symm.trans hk
  rw [Grammar.stmt, bind_of_some (Confined.skipAttributes_of_lacks hlacks), bind_of_some offset_eq] at h
  obtain ⟨form, s₁, hform, -⟩ := bind_eq_some.mp h
  rw [Grammar.stmtForm, bind_of_some peek_eq, hpeek] at hform
  rcases hk with rfl | rfl <;> exact hblock _ _ _ _ hform

/-- No action block stands in the body of a function. -/
theorem StmtText.starts_functionBody (x : StmtText .functionBody) :
    ∃ t us, Token.significant x.text = t :: us ∧ t.kind ≠ .keyword .action ∧ t.kind ≠ .keyword .actionvalue := by
  obtain ⟨t, us, hcons, _, _, _, hpeek, hrun⟩ := x.exists_run
  exact ⟨t, us, hcons, Grammar.noActionBlock_of_stmt rfl hrun hpeek⟩

namespace Lines

variable {s : Scope}

/-- The texts. -/
def texts {s : Scope} : Lines s → List String
  | .members xs => xs.map MemberText.text
  | .statements xs _ => xs.map StmtText.text

theorem lexical (x : Lines s) : ∀ text ∈ x.texts, LexicalError.ofText text = [] := by
  intro text htext
  cases x with
  | members xs =>
    obtain ⟨x, -, rfl⟩ := List.mem_map.mp htext
    exact x.lexical
  | statements xs _ =>
    obtain ⟨x, -, rfl⟩ := List.mem_map.mp htext
    exact x.lexical

/-- The texts are read as items in front of an enclosing word. -/
theorem loops (x : Lines s) {rest : List Token} (hrest : AtEnclosing rest) (offset : Nat) (cs : List Token) (c : Setting) :
    ∃ as, Loops c s.item cs (Token.onLines offset x.texts) [] as [] rest := by
  cases x with
  | members xs => exact ⟨_, MemberText.loops_onLines xs (hrest.lacks rfl) offset cs (.inr rfl)⟩
  | statements xs h => exact ⟨_, StmtText.loops_onLines h hrest.stmtStops offset cs c⟩

/-- No label stands in front of them. -/
theorem lacks_colon (x : Lines s) {rest : List Token} (hrest : AtEnclosing rest) (offset : Nat) :
    Lacks (.punct .colon) (Token.onLines offset x.texts ++ rest) := by
  cases x with
  | members xs => exact MemberText.lacks_onLines offset xs (hrest.lacks rfl)
  | statements xs h => exact StmtText.lacks_onLines offset xs (hrest.lacks rfl)

/-- Nor does an action block in a function. -/
theorem lacks_action (x : Lines (.body .functionBody)) {rest : List Token} (hrest : AtEnclosing rest) (offset : Nat) :
    Lacks (.keyword .action) (Token.onLines offset x.texts ++ rest) ∧
      Lacks (.keyword .actionvalue) (Token.onLines offset x.texts ++ rest) := by
  cases x with
  | statements xs h =>
    cases xs with
    | nil => exact ⟨hrest.lacks rfl, hrest.lacks rfl⟩
    | cons x xs =>
      obtain ⟨t, us, hcons, haction, hvalue⟩ := x.starts_functionBody
      rw [texts, List.map_cons, Token.onLines, hcons]
      exact ⟨fun t' ht => by cases ht; exact haction, fun t' ht => by cases ht; exact hvalue⟩

end Lines

/-! ## Constructs of all scopes -/

section Constructs

variable {c : Setting} {ok : Bool} {t : Token} {cs ts rest : List Token} {ds ds' : List Diagnostic}

/-- A statement that begins without attributes. -/
theorem Scope.answers_body {dialect : Dialect} (hlacks : Lacks (.punct .attrOpen) (t :: ts ++ rest))
    (h : Answers c (Grammar.full.stmtForm dialect) cs (t :: ts) ds ok ds' rest) :
    Answers c (Scope.body dialect).item cs (t :: ts) ds ok ds' rest := by
  show Answers c (Grammar.full.innerStmt dialect) cs (t :: ts) ds ok ds' rest
  rw [Grammar.innerStmt_eq]
  exact .skipAttributes hlacks (.offset (h.spanned _))

/-- A module may stand everywhere. -/
theorem Scope.answers_module (s : Scope) (ht : t.kind = .keyword .module)
    (h : Answers c Grammar.full.moduleDef cs (t :: ts) ds ok ds' rest) : Answers c s.item cs (t :: ts) ds ok ds' rest := by
  have hlacks : Lacks (.punct .attrOpen) (t :: ts ++ rest) := .cons ht (by decide) _
  have hinner : Answers c Grammar.full.innerModule cs (t :: ts) ds ok ds' rest := h.congr Grammar.full_moduleDef
  cases s with
  | package =>
    refine .skipAttributes hlacks (.peek ?_)
    rw [ht]
    exact hinner.then_ fun _ => ⟨_, rfl⟩
  | module =>
    refine .skipAttributes hlacks (.peek ?_)
    rw [ht]
    exact hinner.then_ fun _ => ⟨_, rfl⟩
  | body dialect =>
    refine Scope.answers_body hlacks (.peek ?_)
    rw [ht]
    exact h.then_ fun _ => ⟨_, rfl⟩

/-- And so may a function. -/
theorem Scope.answers_function (s : Scope) (ht : t.kind = .keyword .function)
    (h : Answers c Grammar.full.functionDef cs (t :: ts) ds ok ds' rest) : Answers c s.item cs (t :: ts) ds ok ds' rest := by
  have hlacks : Lacks (.punct .attrOpen) (t :: ts ++ rest) := .cons ht (by decide) _
  cases s with
  | package =>
    have hinner : Answers c (withGrammar Grammar.functionDef) cs (t :: ts) ds ok ds' rest := h.congr Grammar.full_functionDef
    refine .skipAttributes hlacks (.peek ?_)
    rw [ht]
    exact hinner.then_ fun _ => ⟨_, rfl⟩
  | module =>
    refine .skipAttributes hlacks (.peek ?_)
    rw [ht]
    exact h.then_ fun _ => ⟨_, rfl⟩
  | body dialect =>
    refine Scope.answers_body hlacks (.peek ?_)
    rw [ht]
    exact h.then_ fun _ => ⟨_, rfl⟩

variable {s s' : Scope} {head inside us : List Token}

/-- The tokens of a construct are read up to its closing word, or up to the place where that is missing. -/
theorem Enclosure.answers (k : Enclosure s s') {as : List s'.Item}
    (hhead : head.map Token.kind = .keyword k.word :: k.header)
    (hcolon : Lacks (.punct .colon) (inside ++ (us ++ rest)))
    (haction : s' = .body .functionBody →
      Lacks (.keyword .action) (inside ++ (us ++ rest)) ∧ Lacks (.keyword .actionvalue) (inside ++ (us ++ rest)))
    (hitems : ComesTo c (items s'.item) (head.reverse ++ cs) inside [] (some as) ds (us ++ rest))
    (hcloses : Closes c k.closing ds us ok ds' rest) : Answers c s.item cs (head ++ (inside ++ us)) [] ok ds' rest := by
  obtain ⟨t, hs, rfl, ht, hheader⟩ := List.map_eq_cons_iff.mp hhead
  cases k with
  | module s =>
    obtain ⟨name, hs, rfl, hname, hheader⟩ := List.map_eq_cons_iff.mp hheader
    obtain ⟨semi, hs, rfl, hsemi, hheader⟩ := List.map_eq_cons_iff.mp hheader
    obtain rfl := List.map_eq_nil_iff.mp hheader
    have hmodule : Answers c Grammar.full.moduleDef cs (t :: name :: semi :: (inside ++ us)) [] ok ds' rest :=
      .moduleDef hname hsemi hitems hcloses
    exact s.answers_module ht hmodule
  | function s =>
    obtain ⟨type, hs, rfl, htype, hheader⟩ := List.map_eq_cons_iff.mp hheader
    obtain ⟨name, hs, rfl, hname, hheader⟩ := List.map_eq_cons_iff.mp hheader
    obtain ⟨semi, hs, rfl, hsemi, hheader⟩ := List.map_eq_cons_iff.mp hheader
    obtain rfl := List.map_eq_nil_iff.mp hheader
    have hfunction : Answers c Grammar.full.functionDef cs (t :: type :: name :: semi :: (inside ++ us)) [] ok ds' rest :=
      .functionDef htype hname hsemi (haction rfl) hitems hcloses
    exact s.answers_function ht hfunction
  | rule =>
    obtain ⟨name, hs, rfl, hname, hheader⟩ := List.map_eq_cons_iff.mp hheader
    obtain ⟨semi, hs, rfl, hsemi, hheader⟩ := List.map_eq_cons_iff.mp hheader
    obtain rfl := List.map_eq_nil_iff.mp hheader
    have hrule : Answers c Grammar.full.ruleDef cs (t :: name :: semi :: (inside ++ us)) [] ok ds' rest :=
      .ruleDef hname hsemi hitems hcloses
    refine .skipAttributes (.cons ht (by decide) _) (.peek ?_)
    rw [ht]
    exact hrule.then_ fun _ => ⟨_, rfl⟩
  | block dialect =>
    obtain rfl := List.map_eq_nil_iff.mp hheader
    have hblock : Answers c (Grammar.full.block dialect .begin .end_) cs (t :: (inside ++ us)) [] ok ds' rest :=
      .block ht hcolon hitems hcloses
    have hword : t.kind = .keyword .begin := ht
    refine Scope.answers_body (.cons hword (by decide) _) (.peek ?_)
    rw [hword]
    exact hblock.then_ fun _ => ⟨_, rfl⟩

end Constructs

/-! ## Nested constructs -/

/-- Constructs inside each other on lines of their own, none of which is closed. -/
inductive Unclosed : Scope → Type
  | nothing {s : Scope} : Unclosed s
  | within {s s' : Scope} (k : Enclosure s s') (opening : TokenLine (.keyword k.word :: k.header)) (before : Lines s')
      (inner : Unclosed s') : Unclosed s

namespace Unclosed

/-- The lines. -/
def texts {s : Scope} : Unclosed s → List String
  | .nothing => []
  | .within _ opening before inner => opening.text :: (before.texts ++ inner.texts)

/-- The closing words that are missing, that of the innermost construct first. -/
def closings {s : Scope} : Unclosed s → List Keyword
  | .nothing => []
  | .within k _ _ inner => inner.closings ++ [k.closing]

end Unclosed

namespace Unclosed

variable {s s' : Scope} {c : Setting} {ts : List Token}

/-- In front of closing words each line of the constructs begins with an enclosing word or with the first token of an
item. -/
theorem atEnclosing (x : Unclosed s) (offset : Nat) (hts : AtEnclosing ts) :
    AtEnclosing (Token.onLines offset x.texts ++ ts) := by
  cases x with
  | nothing => exact hts
  | within k opening before inner =>
    obtain ⟨t, us, hcons, hword, -⟩ := List.map_eq_cons_iff.mp opening.ofKinds
    rw [texts, Token.onLines, hcons]
    rintro t' ⟨⟩
    show t.kind.isEnclosing = true
    rw [hword]
    cases k <;> rfl

/-- What is read inside a construct, up to its closing word. -/
theorem answers_within (k : Enclosure s s') (opening : TokenLine (.keyword k.word :: k.header)) (before : Lines s')
    (inner : Unclosed s') (hts : Closers ts)
    (hinner : ∀ offset cs, ∃ took as, ts = took ++ (closeAll c ts inner.closings).1 ∧
      Loops c s'.item cs (Token.onLines offset inner.texts ++ took) [] as (closeAll c ts inner.closings).2
        (closeAll c ts inner.closings).1) (offset : Nat) (cs : List Token) :
    ∃ t us took ok, Token.onLines offset (within k opening before inner).texts ++ took = t :: us ∧
      t.kind = .keyword k.word ∧ ts = took ++ (closeAll c ts (within k opening before inner).closings).1 ∧
      Answers c s.item cs (t :: us) [] ok (closeAll c ts (within k opening before inner).closings).2
        (closeAll c ts (within k opening before inner).closings).1 := by
  let head := (Token.significant opening.text).map (Token.move (· + offset))
  let first := offset + Text.byteSize opening.text.toList + 1
  let second := first + linesSize before.texts
  have hhead : head.map Token.kind = .keyword k.word :: k.header := by
    rw [← opening.ofKinds, List.map_map]
    rfl
  obtain ⟨took, as, hsplit, hloops⟩ := hinner second ((Token.onLines first before.texts).reverse ++ (head.reverse ++ cs))
  have hleft : Closers (closeAll c ts inner.closings).1 := .right (hsplit ▸ hts)
  obtain ⟨took', ok, hsplit', hcloses⟩ := closes_closeOne (c := c) hleft k.closing
  have hedge : AtEnclosing (Token.onLines second inner.texts ++ ts) :=
    inner.atEnclosing second hts.closing.atEnclosing
  obtain ⟨bs, hbefore⟩ := before.loops hedge first (head.reverse ++ cs) c
  have hinside : Token.onLines first before.texts ++ (Token.onLines second inner.texts ++ took) ++
      (took' ++ (closeOne c (closeAll c ts inner.closings) k.closing).1) =
        Token.onLines first before.texts ++ (Token.onLines second inner.texts ++ ts) := by
    rw [← hsplit', List.append_assoc, List.append_assoc, ← hsplit]
  have hitems : ComesTo c (items s'.item) (head.reverse ++ cs)
      (Token.onLines first before.texts ++ (Token.onLines second inner.texts ++ took)) [] (some (bs ++ as))
      (closeAll c ts inner.closings).2 (took' ++ (closeOne c (closeAll c ts inner.closings) k.closing).1) := by
    rw [← hsplit']
    refine Loops.items (.append ?_ hloops) hleft.closing
    rw [List.append_assoc, ← hsplit]
    exact hbefore
  have hanswers := k.answers hhead (by rw [hinside]; exact before.lacks_colon hedge first)
    (by rintro rfl; rw [hinside]; exact before.lacks_action hedge first) hitems hcloses
  have htokens : Token.onLines offset (within k opening before inner).texts ++ (took ++ took') =
      head ++ (Token.onLines first before.texts ++ (Token.onLines second inner.texts ++ took) ++ took') := by
    rw [texts, Token.onLines, Token.onLines_append]
    simp only [List.append_assoc]
    rfl
  obtain ⟨t, us, hcons, hword, -⟩ := List.map_eq_cons_iff.mp hhead
  rw [hcons] at htokens hanswers
  refine ⟨t, _, took ++ took', ok, htokens, hword, ?_, ?_⟩
  · rw [closings, closeAll_append, List.append_assoc, ← hsplit', ← hsplit]
  · rw [closings, closeAll_append]
    exact hanswers

/-- The lines of constructs in front of closing words are read by the loop over the items around them. -/
theorem loops (x : Unclosed s) (hts : Closers ts) (offset : Nat) (cs : List Token) :
    ∃ took as, ts = took ++ (closeAll c ts x.closings).1 ∧
      Loops c s.item cs (Token.onLines offset x.texts ++ took) [] as (closeAll c ts x.closings).2
        (closeAll c ts x.closings).1 := by
  induction x generalizing offset cs with
  | nothing => exact ⟨[], [], rfl, .nil⟩
  | within k opening before inner ih =>
    obtain ⟨t, us, took, ok, htokens, hword, hsplit, hanswers⟩ :=
      answers_within k opening before inner hts ih offset cs
    obtain ⟨read, hread⟩ := hanswers.resuming (Closers.right (hsplit ▸ hts)).closing
    refine ⟨took, read.toList, hsplit, ?_⟩
    rw [htokens]
    refine .round (.inr rfl) ?_ hread
    rw [hword]
    cases k <;> rfl

end Unclosed

/-! ## Whole sources -/

/-- A text that is one closing word. -/
structure CloserLine where
  /-- The word. -/
  word : Keyword
  /-- It closes something. -/
  closes : (Kind.keyword word).isCloser = true
  /-- The text. -/
  line : TokenLine [.keyword word]

namespace Unclosed

variable (x : Unclosed .package) (closers : List CloserLine)

/-- Constructs that are not closed, and closing words behind them. -/
def source : String := "\n".intercalate (x.texts ++ closers.map fun w => w.line.text)

/-- The tokens of the closing words. -/
def closerTokens : List Token := Token.onLines (linesSize x.texts) (closers.map fun w => w.line.text)

theorem lexical {s : Scope} (x : Unclosed s) : ∀ text ∈ x.texts, LexicalError.ofText text = [] := by
  induction x with
  | nothing => exact fun text htext => (List.not_mem_nil htext).elim
  | within k opening before inner ih =>
    exact List.forall_mem_cons.mpr ⟨opening.lexical, List.forall_mem_append.mpr ⟨before.lexical, ih⟩⟩

theorem closers_onLines (offset : Nat) : Closers (Token.onLines offset (closers.map fun w => w.line.text)) := by
  induction closers generalizing offset with
  | nil => exact fun t ht => (List.not_mem_nil ht).elim
  | cons w closers ih =>
    obtain ⟨t, us, hcons, hword, hus⟩ := List.map_eq_cons_iff.mp w.line.ofKinds
    obtain rfl := List.map_eq_nil_iff.mp hus
    rw [List.map_cons, Token.onLines, hcons]
    refine List.forall_mem_cons.mpr ⟨?_, ih _⟩
    show t.kind.isCloser = true
    rw [hword]
    exact w.closes

/-- Words that close nothing are reported one by one. -/
theorem packageLoops_closers {c : Setting} (hc : c.recovery = .collectAll) {body : PackageBody} {cs ts : List Token}
    {ds : List Diagnostic} (hts : Closers ts) :
    PackageLoops c cs ts ds body body ((ts.map strayed).reverse ++ ds) [] := by
  induction ts generalizing cs ds with
  | nil => exact .nil
  | cons t ts ih =>
    obtain ⟨ht, hts⟩ := List.forall_mem_cons.mp hts
    have hfirst : PackageLoops c cs [t] ds body body (strayed t :: ds) (ts ++ []) := .closer (.inl hc) ht
    rw [List.map_cons, List.reverse_cons, List.append_assoc]
    exact hfirst.append (ih hts)

/-- The loop over the items of a source of unclosed constructs and closing words. -/
theorem packageLoops {c : Setting} (hc : c.recovery = .collectAll) {ts : List Token}
    (hts : Closers ts) :
    ∃ body, PackageLoops c [] (Token.onLines 0 x.texts ++ ts) [] .empty body
      (((closeAll c ts x.closings).1.map strayed).reverse ++ (closeAll c ts x.closings).2) [] := by
  cases x with
  | nothing => exact ⟨_, packageLoops_closers hc hts⟩
  | within k opening before inner =>
    obtain ⟨t, us, took, ok, htokens, hword, hsplit, hanswers⟩ :=
      answers_within k opening before inner hts (inner.loops hts) 0 []
    have hleft : Closers (closeAll c ts (within k opening before inner).closings).1 := .right (hsplit ▸ hts)
    obtain ⟨(read : Option PackageStmt), hread⟩ := hanswers.resuming hleft.closing
    have hitem : PackageLoops c [] (t :: us) [] .empty
        { PackageBody.empty with stmts := PackageBody.empty.stmts ++ read.toList }
        (closeAll c ts (within k opening before inner).closings).2
        ((closeAll c ts (within k opening before inner).closings).1 ++ []) := by
      rw [List.append_nil]
      refine .item (.inl hc) ?_ ?_ ?_ hread <;> rw [hword] <;> cases k <;> decide
    refine ⟨{ PackageBody.empty with stmts := PackageBody.empty.stmts ++ read.toList }, ?_⟩
    have hall := hitem.append (packageLoops_closers hc hleft)
    rw [← htokens, List.append_assoc, ← hsplit] at hall
    exact hall

theorem significant_source :
    Token.significant (x.source closers) = Token.onLines 0 x.texts ++ x.closerTokens closers ∧
      LexicalError.ofText (x.source closers) = [] := by
  have hlines : ∀ text ∈ x.texts ++ closers.map (fun w => w.line.text), LexicalError.ofText text = [] := by
    refine List.forall_mem_append.mpr ⟨x.lexical, fun text htext => ?_⟩
    obtain ⟨w, -, rfl⟩ := List.mem_map.mp htext
    exact w.line.lexical
  obtain ⟨hsignificant, hlexical⟩ := Token.significant_lines hlines
  rw [Token.onLines_append, Nat.zero_add] at hsignificant
  exact ⟨hsignificant, hlexical⟩

/-- What is said about constructs that are not closed and closing words behind them.  Each construct, the innermost one
first, takes the next word if it is its own one, and otherwise its own word is missing there; the words that are left
over close nothing. -/
theorem parse_diagnostics :
    (parse (x.source closers) .collectAll).diagnostics =
      (closeAll (.ofText (x.source closers) .collectAll) (x.closerTokens closers) x.closings).2.reverse ++
        (closeAll (.ofText (x.source closers) .collectAll) (x.closerTokens closers) x.closings).1.map strayed := by
  obtain ⟨hsignificant, hlexical⟩ := x.significant_source closers
  have hclosers : Closers (x.closerTokens closers) := closers_onLines closers _
  have hedge : AtEnclosing (Token.significant (x.source closers)) := by
    rw [hsignificant]
    exact x.atEnclosing 0 hclosers.closing.atEnclosing
  have hordered : Token.Ordered (x.closerTokens closers) :=
    (hsignificant ▸ Token.ordered_significant (x.source closers) :
      Token.Ordered (Token.onLines 0 x.texts ++ x.closerTokens closers)).right
  have hinside : ∀ t ∈ x.closerTokens closers, t.span.stop ≤ Text.byteSize (x.source closers).toList := by
    intro t ht
    refine Token.stop_le_of_significant ?_
    rw [hsignificant]
    exact List.mem_append_right _ ht
  obtain ⟨body, hloops⟩ := x.packageLoops (c := .ofText (x.source closers) .collectAll) rfl hclosers
  rw [← hsignificant] at hloops
  rw [(parse_of_packageLoops hlexical (hedge.lacks rfl) hloops).1, List.reverse_append, List.reverse_reverse]
  exact (InTurn.closeAll hordered hinside x.closings).sorted

end Unclosed

open Unclosed in
/-- A closing word behind constructs that are not closed is reported once for each construct inside the one that it
closes; those around that one are reported at the end of the source.  If it closes none of them it is reported once for
each of them, and once more because it closes nothing. -/
theorem misplaced_closer (x : Unclosed .package) (w : CloserLine) :
    ∃ t, (Token.significant (x.source [w])).getLast? = some t ∧ t.kind = .keyword w.word ∧
      (parse (x.source [w]) .collectAll).diagnostics =
        (x.closings.takeWhile (· ≠ w.word)).map
            (fun word => missing (.ofText (x.source [w]) .collectAll) (.keyword word) [t]) ++
          (x.closings.dropWhile (· ≠ w.word)).tail.map
            (fun word => missing (.ofText (x.source [w]) .collectAll) (.keyword word) []) ++
          if w.word ∈ x.closings then [] else [strayed t] := by
  obtain ⟨t, us, hcons, hword, hus⟩ := List.map_eq_cons_iff.mp w.line.ofKinds
  obtain rfl := List.map_eq_nil_iff.mp hus
  have hcloser : x.closerTokens [w] = [t.move (· + linesSize x.texts)] := by
    rw [closerTokens, List.map_singleton, Token.onLines, hcons]
    rfl
  have hleft := foldl_closeOne_singleton (.ofText (x.source [w]) .collectAll)
    (t := t.move (· + linesSize x.texts)) hword x.closings []
  refine ⟨t.move (· + linesSize x.texts), ?_, hword, ?_⟩
  · rw [(x.significant_source [w]).1, hcloser, List.getLast?_append]
    rfl
  · rw [x.parse_diagnostics [w], hcloser, closeAll, hleft, List.append_nil, List.reverse_reverse]
    split <;> rfl

/-- One closing word, reported twice. -/
theorem parse_endrule_twice :
    (parse "module m;\nendrule" .collectAll).diagnostics =
      [⟨.grammar (.expected (.kind (.keyword .endmodule)) (some (.keyword .endrule))), ⟨10, 17⟩⟩,
        ⟨.grammar (.unexpected (.keyword .endrule)), ⟨10, 17⟩⟩] ∧
      (⟨.keyword .endrule, "endrule", ⟨10, 17⟩⟩ : Token) ∈ Token.significant "module m;\nendrule" :=
  ⟨Unclosed.parse_diagnostics (.within (.module .package) ⟨"module m;", rfl, rfl⟩ (.members []) .nothing)
    [⟨.endrule, rfl, ⟨"endrule", rfl, rfl⟩⟩], by decide +kernel⟩

end Bluespec
