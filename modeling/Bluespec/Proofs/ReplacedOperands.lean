import Bluespec.Proofs.FullGrammar
import Bluespec.Proofs.OperatorSoundness

/-!
# Literals in the place of names

The operands of an expression are names.  Where integer literals without a width stand in the place of some of them, the
grammar takes the same steps, with one difference: a sign right before such a literal becomes part of it.

* **`Replaces`** — tokens whose operands stand in the place of the operands of other tokens.
* **`SignedSuffix`** — a sign, a literal and the beginning of a suffix stand in a row.
* **`Replaced`** — the same for trees.  A sign before a literal may have become part of it, also where the literal has
  suffixes: these are then suffixes of the signed literal.
* **`Simulates`** — two parsers do alike where the operands are replaced: both fail, or both yield what is replaced.
-/

namespace Bluespec

open Bluespec.Parser

/-! ## Tokens -/

/-- The operands of an expression in order: names, each with the literal that stands in its place, if one does. -/
abbrev Operands : Type := List (String × Option IntLiteral)

/-- What stands in the place of a name: the name, or an integer literal without a width. -/
inductive Token.StandsFor (t t' : Token) : Option IntLiteral → Prop
  | name (kind : t'.kind = .ident) (text : t'.text = t.text) : StandsFor t t' none
  | literal {lit : IntLiteral} (kind : t'.kind = .int) (denotes : IntLiteral.ofText t'.text = .ok lit)
      (width : lit.width = none) : StandsFor t t' (some lit)

/-- What stands in the place of a name is a name or an integer literal. -/
theorem Token.StandsFor.holds {P : Kind → Prop} {t t' : Token} {literal : Option IntLiteral} (h : t.StandsFor t' literal)
    (hname : P .ident) (hliteral : P .int) : P t'.kind := by
  cases h with
  | name kind => exact kind ▸ hname
  | literal kind => exact kind ▸ hliteral

/-- Symbols and the names of members stay, and operands are replaced. -/
inductive Replaces : Operands → List Token → List Token → Prop
  | nil : Replaces [] [] []
  | symbol {t t' : Token} {p : Punct} {ops : Operands} {ts ts' : List Token} (kind : t.kind = .punct p)
      (kind' : t'.kind = .punct p) (undotted : p ≠ .dot) (more : Replaces ops ts ts') :
      Replaces ops (t :: ts) (t' :: ts')
  | member {dot dot' t t' : Token} {ops : Operands} {ts ts' : List Token} (dotted : dot.kind = .punct .dot)
      (dotted' : dot'.kind = .punct .dot) (kind : t.kind = .ident) (kind' : t'.kind = .ident) (text : t'.text = t.text)
      (more : Replaces ops ts ts') : Replaces ops (dot :: t :: ts) (dot' :: t' :: ts')
  | operand {t t' : Token} {literal : Option IntLiteral} {ops : Operands} {ts ts' : List Token} (kind : t.kind = .ident)
      (stands : t.StandsFor t' literal) (more : Replaces ops ts ts') :
      Replaces ((t.text, literal) :: ops) (t :: ts) (t' :: ts')

theorem Replaces.length_eq {ops : Operands} {ts ts' : List Token} (h : Replaces ops ts ts') :
    ts'.length = ts.length := by
  induction h with
  | nil => rfl
  | symbol kind kind' undotted more ih => rw [List.length_cons, List.length_cons, ih]
  | member dotted dotted' kind kind' text more ih =>
    rw [List.length_cons, List.length_cons, List.length_cons, List.length_cons, ih]
  | operand kind stands more ih => rw [List.length_cons, List.length_cons, ih]

theorem Replaces.of_nil {ops : Operands} {ts' : List Token} (h : Replaces ops [] ts') : ops = [] := by
  cases h
  rfl

/-- The first token of the first row is a symbol or a name. -/
theorem Replaces.head {P : Kind → Prop} {ops : Operands} {ts ts' : List Token} (h : Replaces ops ts ts')
    (hsymbol : ∀ p, P (.punct p)) (hname : P .ident) : ∀ t ∈ ts.head?, P t.kind := by
  intro t ht
  cases h with
  | nil => cases ht
  | symbol kind =>
    cases ht
    exact kind ▸ hsymbol _
  | member dotted =>
    cases ht
    exact dotted ▸ hsymbol _
  | operand kind =>
    cases ht
    exact kind ▸ hname

/-- Either both rows begin with a symbol, or neither does. -/
theorem Replaces.next {p : Punct} (hp : p ≠ .dot) {ops : Operands} {ts ts' : List Token} (h : Replaces ops ts ts') :
    (∃ t t' us us', ts = t :: us ∧ ts' = t' :: us' ∧ t.kind = .punct p ∧ t'.kind = .punct p ∧ Replaces ops us us') ∨
      (∀ t ∈ ts.head?, t.kind ≠ .punct p) ∧ ∀ t ∈ ts'.head?, t.kind ≠ .punct p := by
  cases h with
  | nil => exact .inr ⟨nofun, nofun⟩
  | @symbol t t' q _ us us' kind kind' undotted more =>
    by_cases hq : q = p
    · exact .inl ⟨t, t', us, us', rfl, rfl, hq ▸ kind, hq ▸ kind', more⟩
    · refine .inr ⟨?_, ?_⟩
      · rintro _ ⟨⟩
        simpa [kind] using hq
      · rintro _ ⟨⟩
        simpa [kind'] using hq
  | member dotted dotted' =>
    refine .inr ⟨?_, ?_⟩
    · rintro _ ⟨⟩
      simpa [dotted] using hp.symm
    · rintro _ ⟨⟩
      simpa [dotted'] using hp.symm
  | operand kind stands =>
    refine .inr ⟨?_, ?_⟩
    · rintro _ ⟨⟩
      simp [kind]
    · rintro _ ⟨⟩
      exact stands.holds (P := fun k => k ≠ .punct p) nofun nofun

/-- Suffixes begin in the first row where they do in the second. -/
theorem Replaces.unsuffixed {ops : Operands} {ts ts' : List Token} (h : Replaces ops ts ts')
    (hsuffix : ∀ t ∈ ts'.head?, t.kind.startsSuffix = false) : ∀ t ∈ ts.head?, t.kind.startsSuffix = false := by
  intro t ht
  cases h with
  | nil => cases ht
  | symbol kind kind' =>
    cases ht
    rw [kind, ← kind']
    exact hsuffix _ rfl
  | member dotted dotted' =>
    cases ht
    rw [dotted, ← dotted']
    exact hsuffix _ rfl
  | operand kind =>
    cases ht
    rw [kind]
    rfl

/-- Operands are no operators, and no operation binds as tightly as a unary operator does. -/
theorem Replaces.stops {ops : Operands} {ts ts' : List Token} (h : Replaces ops ts ts')
    (hsuffix : ∀ t ∈ ts.head?, t.kind.startsSuffix = false) : Stops unaryPower ts := by
  have hoperation : ∀ t ∈ ts.head?, t.kind.startsOperation unaryPower = false := by
    refine h.head (P := fun k => k.startsOperation unaryPower = false) (fun p => ?_) rfl
    cases p <;> rfl
  exact fun t ht => ⟨hsuffix t ht, hoperation t ht⟩

/-- A sign, an integer literal and the beginning of a suffix stand in a row. -/
def SignedSuffix (ts : List Token) : Prop :=
  ∃ (sign : Sign) (op literal suffix : Token), [op, literal, suffix] <:+: ts ∧
    (UnaryOp.ofKind? op.kind).bind Sign.ofOperator? = some sign ∧ literal.kind = .int ∧ suffix.kind.startsSuffix = true

/-- A literal and the beginning of a suffix stand at the beginning of a row. -/
def LiteralSuffix (ts : List Token) : Prop :=
  ∃ literal suffix us, ts = literal :: suffix :: us ∧ literal.kind = .int ∧ suffix.kind.startsSuffix = true

theorem SignedSuffix.of_literalSuffix {sign : Sign} {op : UnaryOp} {t : Token} {ts : List Token}
    (hop : UnaryOp.ofKind? t.kind = some op) (hsign : Sign.ofOperator? op = some sign) (h : LiteralSuffix ts) :
    SignedSuffix (t :: ts) := by
  obtain ⟨literal, suffix, us, rfl, hliteral, hsuffix⟩ := h
  refine ⟨sign, t, literal, suffix, ⟨[], us, rfl⟩, ?_, hliteral, hsuffix⟩
  rw [hop]
  exact hsign

theorem SignedSuffix.cons {t : Token} {ts : List Token} (h : SignedSuffix ts) : SignedSuffix (t :: ts) := by
  obtain ⟨sign, op, literal, suffix, hinfix, hkinds⟩ := h
  exact ⟨sign, op, literal, suffix, hinfix.trans (List.suffix_cons t ts).isInfix, hkinds⟩

/-! ## Trees -/

/-- What stands in the place of a name, as a tree. -/
def ExprForm.ofOperand (name : String) : Option IntLiteral → ExprForm
  | none => .var name
  | some lit => .literal (.int lit)

mutual

/-- The operands of the first tree, in order, are replaced in the second one.  A sign that has become part of a literal
stands before the first operand; the operand of the sign is that one alone, or it has suffixes as well if `far` holds. -/
inductive Replaced (far : Prop) : Operands → Option Sign → ExprForm → ExprForm → Prop
  | operand (name : String) (literal : Option IntLiteral) :
      Replaced far [(name, literal)] none (.var name) (.ofOperand name literal)
  | signed (name : String) (lit : IntLiteral) (sign : Sign) :
      Replaced far [(name, some lit)] (some sign) (.var name) (.literal (.int { lit with sign := some sign }))
  | dontCare : Replaced far [] none .dontCare .dontCare
  | unary {ops : Operands} {op : UnaryOp} {e e' : Expr} (operand : Replaced far ops none e.form e'.form) :
      Replaced far ops none (.unary op e) (.unary op e')
  | sign {ops : Operands} {op : UnaryOp} {sign : Sign} {e : Expr} {form : ExprForm}
      (becomes : Sign.ofOperator? op = some sign) (operand : Replaced far ops (some sign) e.form form)
      (reach : far ∨ ∃ name, e.form = .var name) :
      Replaced far ops none (.unary op e) form
  | binary {ops ops₁ : Operands} {op : BinaryOp} {a a' b b' : Expr} (lhs : Replaced far ops none a.form a'.form)
      (rhs : Replaced far ops₁ none b.form b'.form) : Replaced far (ops ++ ops₁) none (.binary op a b) (.binary op a' b')
  | cond {ops ops₁ ops₂ : Operands} {p p' : Predicate} {a a' b b' : Expr}
      (predicate : ReplacedAll far ops p.conjuncts p'.conjuncts) (thenBranch : Replaced far ops₁ none a.form a'.form)
      (elseBranch : Replaced far ops₂ none b.form b'.form) :
      Replaced far (ops ++ (ops₁ ++ ops₂)) none (.cond p a b) (.cond p' a' b')
  | concat {ops : Operands} {es es' : List Expr} (items : ReplacedAll far ops es es') :
      Replaced far ops none (.concat es) (.concat es')
  | bit {ops ops₁ : Operands} {sign : Option Sign} {base base' i i' : Expr}
      (operand : Replaced far ops sign base.form base'.form) (index : Replaced far ops₁ none i.form i'.form) :
      Replaced far (ops ++ ops₁) sign (.select base i none) (.select base' i' none)
  | range {ops ops₁ ops₂ : Operands} {sign : Option Sign} {base base' hi hi' lo lo' : Expr}
      (operand : Replaced far ops sign base.form base'.form) (upper : Replaced far ops₁ none hi.form hi'.form)
      (lower : Replaced far ops₂ none lo.form lo'.form) :
      Replaced far (ops ++ (ops₁ ++ ops₂)) sign (.select base hi (some lo)) (.select base' hi' (some lo'))
  | call {ops ops₁ : Operands} {sign : Option Sign} {callee callee' : Expr} {args args' : List Expr}
      (operand : Replaced far ops sign callee.form callee'.form) (arguments : ReplacedAll far ops₁ args args') :
      Replaced far (ops ++ ops₁) sign (.call callee args) (.call callee' args')
  | field {ops : Operands} {sign : Option Sign} {base base' : Expr} {name : String}
      (operand : Replaced far ops sign base.form base'.form) : Replaced far ops sign (.field base name) (.field base' name)
  | methodCall {ops ops₁ : Operands} {sign : Option Sign} {receiver receiver' : Expr} {name : String}
      {args args' : List Expr} (operand : Replaced far ops sign receiver.form receiver'.form)
      (arguments : ReplacedAll far ops₁ args args') :
      Replaced far (ops ++ ops₁) sign (.methodCall receiver name args) (.methodCall receiver' name args')

/-- The same for trees in a row. -/
inductive ReplacedAll (far : Prop) : Operands → List Expr → List Expr → Prop
  | nil : ReplacedAll far [] [] []
  | cons {ops ops₁ : Operands} {e e' : Expr} {es es' : List Expr} (head : Replaced far ops none e.form e'.form)
      (tail : ReplacedAll far ops₁ es es') : ReplacedAll far (ops ++ ops₁) (e :: es) (e' :: es')

end

/-- Two expressions of which the operands are replaced. -/
abbrev ReplacedExpr (far : Prop) (ops : Operands) (e e' : Expr) : Prop := Replaced far ops none e.form e'.form

variable {far : Prop}

theorem ReplacedAll.one {ops : Operands} {e e' : Expr} (h : Replaced far ops none e.form e'.form) :
    ReplacedAll far ops [e] [e'] := by
  rw [← List.append_nil ops]
  exact .cons h .nil

theorem ReplacedAll.isEmpty_eq {ops : Operands} {es es' : List Expr} (h : ReplacedAll far ops es es') :
    es'.isEmpty = es.isEmpty := by
  cases h <;> rfl

theorem ReplacedAll.append {ops ops₁ : Operands} {es es' fs fs' : List Expr} (h : ReplacedAll far ops es es')
    (h' : ReplacedAll far ops₁ fs fs') : ReplacedAll far (ops ++ ops₁) (es ++ fs) (es' ++ fs') := by
  induction es generalizing ops es' with
  | nil =>
    cases h
    exact h'
  | cons e es ih =>
    cases h with
    | cons head tail =>
      rw [List.append_assoc]
      exact .cons head (ih tail)

/-! ## Two runs -/

/-- Two states without a diagnostic, in front of at most `n` tokens whose operands are replaced. -/
structure Parser.State.Parallel (far : Prop) (n : Nat) (ops : Operands) (s s' : State) : Prop where
  tokens : Replaces ops s.rest s'.rest
  bound : s.rest.length ≤ n
  clean : s.diagnostics = []
  clean' : s'.diagnostics = []
  reach : SignedSuffix s'.rest → far

theorem Parser.State.Parallel.weaken {n m : Nat} {ops : Operands} {s s' : State} (h : s.Parallel far n ops s') (hn : n ≤ m) :
    s.Parallel far m ops s' :=
  ⟨h.tokens, Nat.le_trans h.bound hn, h.clean, h.clean', h.reach⟩

/-- Two runs end alike: both fail, or both yield a value, and the first operands are those that the values are about. -/
inductive Agree {α β : Type} (far : Prop) (n : Nat) (R : Operands → α → β → Prop) (ops : Operands) :
    Option α × State → Option β × State → Prop
  | failed (s s' : State) : Agree far n R ops (none, s) (none, s')
  | read {read left : Operands} {a : α} {b : β} {s s' : State} (split : ops = read ++ left) (value : R read a b)
      (alike : s.Parallel far n left s') : Agree far n R ops (some a, s) (some b, s')

/-- Two rounds end alike: of what the next ones start with, and of the results, two relations hold. -/
inductive Parser.Round.Both {α β γ δ : Type} (I : α → γ → Prop) (Q : β → δ → Prop) : Round α β → Round γ δ → Prop
  | again {a : α} {a' : γ} (h : I a a') : Both I Q (.again a) (.again a')
  | done {b : β} {b' : δ} (h : Q b b') : Both I Q (.done b) (.done b')

/-- Two rounds that add to expressions of which the first operands are `ops`. -/
abbrev ReplacedRound (far : Prop) (sign : Option Sign) (ops more : Operands) : Round Expr Expr → Round Expr Expr → Prop :=
  Round.Both (fun e e' => Replaced far (ops ++ more) sign e.form e'.form)
    fun e e' => Replaced far (ops ++ more) sign e.form e'.form

/-- In front of at most `n` tokens whose operands are replaced, two runs end alike, with at most `m` tokens left. -/
def Simulates {α β : Type} (far : Prop) (n m : Nat) (R : Operands → α → β → Prop) (p : Parser α) (q : Parser β) : Prop :=
  ∀ c d s s' ops, s.Parallel far n ops s' → Agree far m R ops (p c s) (q d s')

section Rules

variable {α β γ δ : Type} {n m k : Nat} {R : Operands → α → β → Prop} {S : Operands → γ → δ → Prop} {ops : Operands}
  {p : Parser α} {q : Parser β} {f : α → Parser γ} {g : β → Parser δ} {c d : Setting} {s s' : State}

theorem Agree.weaken {R' : Operands → α → β → Prop} {r : Option α × State} {r' : Option β × State} (hm : n ≤ m)
    (hR : ∀ ops a b, R ops a b → R' ops a b) (h : Agree far n R ops r r') : Agree far m R' ops r r' := by
  cases h with
  | failed => exact .failed _ _
  | read split value alike => exact .read split (hR _ _ _ value) (alike.weaken hm)

theorem Agree.of_none {r : Option α × State} {r' : Option β × State} (h : r.1 = none) (h' : r'.1 = none) :
    Agree far n R ops r r' := by
  obtain ⟨_, s⟩ := r
  obtain ⟨_, s'⟩ := r'
  cases h
  cases h'
  exact .failed s s'

theorem Agree.bind (h : Agree far m R ops (p c s) (q d s'))
    (hf : ∀ read a b, R read a b → Simulates far m k (fun ops => S (read ++ ops)) (f a) (g b)) :
    Agree far k S ops ((p >>= f) c s) ((q >>= g) d s') := by
  rw [bind_apply, bind_apply]
  generalize p c s = r at h
  generalize q d s' = r' at h
  cases h with
  | failed => exact .failed _ _
  | @read read left a b s₁ s₁' split value alike =>
    have hnext := hf _ _ _ value c d s₁ s₁' left alike
    dsimp only
    generalize f a c s₁ = r at hnext ⊢
    generalize g b d s₁' = r' at hnext ⊢
    cases hnext with
    | failed => exact .failed _ _
    | @read read₁ left₁ _ _ _ _ split₁ value₁ alike₁ =>
      have hsplit : ops = read ++ read₁ ++ left₁ := by rw [split, split₁, List.append_assoc]
      exact .read hsplit value₁ alike₁

namespace Simulates

theorem bind (h : Simulates far n m R p q)
    (hf : ∀ read a b, R read a b → Simulates far m k (fun ops => S (read ++ ops)) (f a) (g b)) :
    Simulates far n k S (p >>= f) (q >>= g) :=
  fun c d s s' ops hs => (h c d s s' ops hs).bind hf

theorem weaken {R' : Operands → α → β → Prop} {n' m' : Nat} (h : Simulates far n m R p q) (hn : n' ≤ n) (hm : m ≤ m')
    (hR : ∀ ops a b, R ops a b → R' ops a b) : Simulates far n' m' R' p q :=
  fun c d s s' ops hs => (h c d s s' ops (hs.weaken hn)).weaken hm hR

theorem value {a : α} {b : β} (hn : n ≤ m) (h : R [] a b) : Simulates far n m R (pure a) (pure b) :=
  fun _ _ _ _ _ hs => .read rfl h (hs.weaken hn)

theorem failed (hp : ∀ c s, (p c s).1 = none) (hq : ∀ c s, (q c s).1 = none) : Simulates far n m R p q :=
  fun c d s s' _ _ => .of_none (hp c s) (hq d s')

theorem fail : Simulates far n m R (fail : Parser α) (fail : Parser β) := failed (fun _ _ => rfl) fun _ _ => rfl

/-- A question about the state, whose answer is a place. -/
theorem look {p : Parser α} {q : Parser β} {f : α → Parser γ} {g : β → Parser δ}
    (hp : ∀ c s, ∃ a, p c s = (some a, s)) (hq : ∀ c s, ∃ b, q c s = (some b, s))
    (h : ∀ a b, Simulates far n m S (f a) (g b)) : Simulates far n m S (p >>= f) (q >>= g) := by
  intro c d s s' ops hs
  obtain ⟨a, ha⟩ := hp c s
  obtain ⟨b, hb⟩ := hq d s'
  rw [bind_of_some ha, bind_of_some hb]
  exact h a b c d s s' ops hs

/-- A tree with its span. -/
theorem spanned {tree : Span → α} {tree' : Span → β} {start start' : Nat} (hn : n ≤ m)
    (h : ∀ span span', R [] (tree span) (tree' span')) :
    Simulates far n m R (spanFrom start >>= fun span => pure (tree span))
      (spanFrom start' >>= fun span => pure (tree' span)) :=
  look (fun _ _ => ⟨_, rfl⟩) (fun _ _ => ⟨_, rfl⟩) fun span span' => value hn (h span span')

/-! ### Symbols -/

section Symbols

variable {x : Punct} (hx : x ≠ .dot)

include hx

theorem eat {f : Option Token → Parser γ} {g : Option Token → Parser δ}
    (hsome : ∀ t t', Simulates far (n - 1) m S (f (some t)) (g (some t'))) (hnone : Simulates far n m S (f none) (g none)) :
    Simulates far n m S (eat (.punct x) >>= f) (eat (.punct x) >>= g) := by
  rintro c d ⟨cs, ts, ds, ns⟩ ⟨cs', ts', ds', ns'⟩ ops ⟨htokens, hbound, hclean, hclean', hreach⟩
  rcases htokens.next hx with ⟨t, t', us, us', rfl, rfl, hk, hk', hmore⟩ | ⟨hhead, hhead'⟩
  · rw [bind_of_some (eat_of_kind hk), bind_of_some (eat_of_kind hk')]
    refine hsome t t' c d _ _ ops ⟨hmore, ?_, hclean, hclean', fun h => hreach h.cons⟩
    rw [List.length_cons] at hbound
    exact Nat.le_pred_of_lt hbound
  · have hnext : ∀ {e : Setting} {cs ts ds ns}, (∀ t ∈ ts.head?, t.kind ≠ .punct x) →
        Parser.eat (.punct x) e ⟨cs, ts, ds, ns⟩ = (some none, ⟨cs, ts, ds, ns⟩) := by
      intro e cs ts ds ns h
      cases ts with
      | nil => rfl
      | cons t ts => simp [Parser.eat, h t rfl]
    rw [bind_of_some (hnext hhead), bind_of_some (hnext hhead')]
    exact hnone c d _ _ ops ⟨htokens, hbound, hclean, hclean', hreach⟩

theorem accept {f : Bool → Parser γ} {g : Bool → Parser δ} (htrue : Simulates far (n - 1) m S (f true) (g true))
    (hfalse : Simulates far n m S (f false) (g false)) :
    Simulates far n m S (accept (.punct x) >>= f) (accept (.punct x) >>= g) := by
  rw [Parser.accept, bind_assoc, bind_assoc]
  exact eat hx (fun _ _ => htrue) hfalse

/-- A symbol that has to stand there. -/
theorem expectPunct {f : Unit → Parser γ} {g : Unit → Parser δ} (h : Simulates far (n - 1) m S (f ()) (g ())) :
    Simulates far n m S (expectPunct x >>= f) (expectPunct x >>= g) := by
  rw [Parser.expectPunct, Parser.expect, Parser.bind_assoc, Parser.bind_assoc, Parser.bind_assoc, Parser.bind_assoc]
  exact eat hx (fun _ _ => h) (failed (fun _ _ => rfl) fun _ _ => rfl)

/-- A look at the next token. -/
theorem isNext {f : Bool → Parser γ} {g : Bool → Parser δ} (h : ∀ b, Simulates far n m S (f b) (g b)) :
    Simulates far n m S (isNext (.punct x) >>= f) (isNext (.punct x) >>= g) := by
  rintro c d ⟨cs, ts, ds, ns⟩ ⟨cs', ts', ds', ns'⟩ ops hs
  rcases hs.tokens.next hx with ⟨t, t', us, us', rfl, rfl, hk, hk', -⟩ | ⟨hhead, hhead'⟩
  · rw [bind_of_some (isNext_of_kind hk), bind_of_some (isNext_of_kind hk')]
    exact h true c d _ _ ops hs
  · rw [bind_of_some (isNext_of_head hhead), bind_of_some (isNext_of_head hhead')]
    exact h false c d _ _ ops hs

end Symbols

/-! ### Attempts and loops -/

/-- A parser that is run tentatively yields a value in one run exactly if it does in the other. -/
theorem tentatively {f : Option α → Parser γ} {g : Option β → Parser δ} (h : Simulates far n m R p q)
    (hp : Moving p) (hq : Moving q)
    (hsome : ∀ read a b, R read a b → Simulates far m k (fun ops => S (read ++ ops)) (f (some a)) (g (some b)))
    (hnone : Simulates far n k S (f none) (g none)) :
    Simulates far n k S (tentatively p >>= f) (tentatively q >>= g) := by
  intro c d s s' ops hs
  have hrun := h c d s s' ops hs
  have hbind := hrun.bind (f := fun a => f (some a)) (g := fun b => g (some b)) hsome
  rw [bind_apply, bind_apply, Parser.tentatively, Parser.tentatively]
  rw [bind_apply, bind_apply] at hbind
  have hmoves := hp c s
  have hmoves' := hq d s'
  generalize p c s = r at hrun hbind hmoves hmoves' ⊢
  generalize q d s' = r' at hrun hbind hmoves hmoves' ⊢
  cases hrun with
  | failed =>
    simp only [hmoves.rewind, hmoves'.rewind]
    exact hnone c d s s' ops hs
  | read => exact hbind

/-- The rounds of two loops, which keep a relation of what they have read so far. -/
theorem roundsUpTo {round : α → Parser (Round α γ)} {round' : β → Parser (Round β δ)}
    (hround : ∀ ops a b, R ops a b →
      Simulates far n n (fun more => Round.Both (R (ops ++ more)) (S (ops ++ more))) (round a) (round' b))
    (limit : Nat) {ops : Operands} {a : α} {b : β} (h : R ops a b) :
    Simulates far n n (fun more => S (ops ++ more)) (roundsUpTo round limit a) (roundsUpTo round' limit b) := by
  induction limit generalizing ops a b with
  | zero => exact fail
  | succ limit ih =>
    refine (hround ops a b h).bind fun read r r' hboth => ?_
    cases hboth with
    | again hR =>
      simp only [← List.append_assoc]
      exact ih hR
    | done hS =>
      refine value (Nat.le_refl n) ?_
      rw [List.append_nil]
      exact hS

theorem repeatUntil {round : α → Parser (Round α γ)} {round' : β → Parser (Round β δ)}
    (hround : ∀ ops a b, R ops a b →
      Simulates far n n (fun more => Round.Both (R (ops ++ more)) (S (ops ++ more))) (round a) (round' b))
    {ops : Operands} {a : α} {b : β} (h : R ops a b) :
    Simulates far n n (fun more => S (ops ++ more)) (repeatUntil round a) (repeatUntil round' b) := by
  intro c d s s' more hs
  rw [Parser.repeatUntil, Parser.repeatUntil, hs.tokens.length_eq]
  exact roundsUpTo hround _ h c d s s' more hs

/-! ### Lists -/

section Lists

variable {item item' : Parser Expr} (hitem : Simulates far n n (ReplacedExpr far) item item')

include hitem

theorem separated : Simulates far n n (ReplacedAll far) (separated .comma item) (separated .comma item') := by
  have hlimit : ∀ limit, Simulates far n n (ReplacedAll far) (separatedUpTo .comma item limit)
      (separatedUpTo .comma item' limit) := by
    intro limit
    induction limit with
    | zero => exact fail
    | succ limit ih =>
      refine hitem.bind fun read e e' he => accept (by decide) ?_ (value (Nat.le_refl n) ?_)
      · have hmore := ih.weaken (Nat.sub_le n 1) (Nat.le_refl n) fun _ _ _ => id
        refine hmore.bind fun read' es es' hes => value (Nat.le_refl n) ?_
        rw [List.append_nil]
        exact .cons he hes
      · rw [List.append_nil]
        exact .one he
  intro c d s s' ops hs
  rw [Parser.separated, Parser.separated, hs.tokens.length_eq]
  exact hlimit _ c d s s' ops hs

theorem enclosed : Simulates far n n (ReplacedAll far) (enclosed .rparen item) (enclosed .rparen item') := by
  refine accept (by decide) (value (Nat.sub_le n 1) .nil) ?_
  refine (separated hitem).bind fun read es es' hes => expectPunct (by decide) (value (Nat.sub_le n 1) ?_)
  rw [List.append_nil]
  exact hes

end Lists

end Simulates

end Rules

end Bluespec
