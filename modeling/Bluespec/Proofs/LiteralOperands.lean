import Bluespec.Proofs.Layout
import Bluespec.Proofs.ReplacedOperands
import Bluespec.Proofs.WholeTexts

/-!
# Literals are read as names are

The grammar is run in front of names and in front of literals that stand in their place.  Each production takes the same
steps in both runs, except that a sign before a literal is read together with it: the suffixes that the first run reads
inside the operand of the sign are then read behind the signed literal.

* **`Grammar.simulates_primary`**, **`Grammar.simulates_suffixes`**, **`Grammar.simulates_operand`**,
  **`Grammar.simulates_operation`** — one production of two runs, given that inner expressions are read alike.
* **`Grammar.simulates_innerExpr`** — expressions are read alike, by induction on the number of tokens.
* **`literals_read_as_names`** — the same for texts.
-/

namespace Bluespec

open Bluespec.Parser

namespace Grammar

variable {far : Prop} {n : Nat} {c : Setting} {cs rest : List Token} {ds : List Diagnostic} {ns : List NodeSpan} {t : Token}

/-! ## Primaries -/

/-- An integer literal as a primary. -/
theorem primary_of_int {g : Grammar} {lit : IntLiteral} (hk : t.kind = .int) (hlit : IntLiteral.ofText t.text = .ok lit) :
    g.primary c ⟨cs, t :: rest, ds, ns⟩ =
      (some ⟨.literal (.int lit), .through t.span.start [t]⟩, ⟨t :: cs, rest, ds, ns⟩) := by
  have hliteral : literal .int c ⟨cs, t :: rest, ds, ns⟩ = (some (.int lit), ⟨t :: cs, rest, ds, ns⟩) := by
    rw [literal, bind_of_some (expect_of_kind hk), Literal.ofToken, hk]
    simp only [hlit]
    rfl
  rw [primary, bind_of_some offset_cons, bind_of_some peek_cons]
  simp only [hk]
  rw [bind_of_some hliteral]
  rfl

/-- A primary in braces. -/
theorem primary_of_lbrace {g : Grammar} (hk : t.kind = .punct .lbrace) :
    g.primary c ⟨cs, t :: rest, ds, ns⟩ =
      (do
        let items ← separated .comma (g.innerExpr 0)
        expectPunct .rbrace
        return ⟨.concat items, ← spanFrom t.span.start⟩ : Parser Expr) c ⟨t :: cs, rest, ds, ns⟩ := by
  have hitems : g.concatItems c ⟨cs, t :: rest, ds, ns⟩ = (do
      let items ← separated .comma (g.innerExpr 0)
      expectPunct .rbrace
      return items : Parser (List Expr)) c ⟨t :: cs, rest, ds, ns⟩ := by
    rw [concatItems, bind_of_some (expectPunct_of_kind hk)]
  rw [primary, bind_of_some offset_cons, bind_of_some peek_cons]
  simp only [hk]
  rw [bind_apply, hitems, ← bind_apply]
  simp only [Parser.bind_assoc, Parser.pure_bind]

/-- No primary begins with another symbol. -/
theorem primary_of_punct {g : Grammar} {p : Punct} (hk : t.kind = .punct p)
    (hother : p ≠ .question ∧ p ≠ .lparen ∧ p ≠ .lbrace) : (g.primary c ⟨cs, t :: rest, ds, ns⟩).1 = none := by
  rw [primary, bind_of_some offset_cons, bind_of_some peek_cons, hk]
  obtain ⟨hquestion, hlparen, hlbrace⟩ := hother
  cases p <;> first | exact absurd rfl hquestion | exact absurd rfl hlparen | exact absurd rfl hlbrace | rfl

theorem unary_of_head {g : Grammar} (h : ∀ t ∈ rest.head?, UnaryOp.ofKind? t.kind = none) :
    g.unary c ⟨cs, rest, ds, ns⟩ = g.primary c ⟨cs, rest, ds, ns⟩ := by
  cases rest with
  | nil => rfl
  | cons t rest => exact unary_of_none (h t rfl)

/-! ## Behind the first token of a suffix -/

/-- What stands behind the bracket of a selection. -/
def bitsOf (g : Grammar) (base : Expr) : Parser ExprForm := do
  let hi ← g.innerExpr 0
  let lo ← if ← accept (.punct .colon) then some <$> g.innerExpr 0 else pure none
  expectPunct .rbracket
  return .select base hi lo

/-- What stands behind the name of a member. -/
def memberNamed (g : Grammar) (receiver : Expr) (name : String) : Parser ExprForm := do
  if ← isNext (.punct .lparen) then return .methodCall receiver name (← g.arguments)
  else return .field receiver name

/-- A round with a form that has been read. -/
def roundOf (start : Nat) (p : Parser ExprForm) : Parser (Round Expr Expr) := do
  let form ← p
  return .again ⟨form, ← spanFrom start⟩

theorem suffix_eq_bitsOf {g : Grammar} (base : Expr) (hk : t.kind = .punct .lbracket) :
    g.suffix base c ⟨cs, t :: rest, ds, ns⟩ = roundOf base.span.start (g.bitsOf base) c ⟨t :: cs, rest, ds, ns⟩ := by
  rw [suffix_of_lbracket base hk, selection, Parser.bind_assoc, bind_of_some skip_cons]
  rfl

theorem suffix_eq_memberNamed {g : Grammar} {dot : Token} (receiver : Expr) (hdot : dot.kind = .punct .dot)
    (hk : t.kind = .ident) : g.suffix receiver c ⟨cs, dot :: t :: rest, ds, ns⟩ =
      roundOf receiver.span.start (g.memberNamed receiver t.text) c ⟨t :: dot :: cs, rest, ds, ns⟩ := by
  rw [suffix_of_dot receiver hdot, memberOf, Parser.bind_assoc, bind_of_some skip_cons, Parser.bind_assoc,
    bind_of_some (expectText_of_kind hk)]
  rfl

theorem simulates_roundOf {sign : Option Sign} {ops : Operands} (start start' : Nat) {p q : Parser ExprForm}
    (h : Simulates far n n (fun more => Replaced far (ops ++ more) sign) p q) :
    Simulates far n n (ReplacedRound far sign ops) (roundOf start p) (roundOf start' q) := by
  refine h.bind fun read form form' hform => .spanned (Nat.le_refl n) fun _ _ => .again ?_
  rw [List.append_nil]
  exact hform

/-! ## Signs -/

/-- Behind the suffixes of an operand no suffix stands. -/
theorem unsuffixed_of_suffixes {g : Grammar} {a e : Expr} {s s' : State} (h : g.suffixes a c s = (some e, s')) :
    ∀ t ∈ s'.rest.head?, t.kind.startsSuffix = false := by
  obtain ⟨e', s₁, -, hdone⟩ := repeatUntil_induct (motive := fun _ _ => True) (fun _ _ _ _ _ _ => trivial) trivial h
  obtain ⟨-, rfl, hhead⟩ := eq_of_suffix_done hdone
  exact hhead

/-- A sign in front of an integer literal without a width becomes part of it. -/
theorem unaryOperand_of_int {g : Grammar} {op : UnaryOp} {sign : Sign} {lit : IntLiteral} (start : Nat)
    (hsign : Sign.ofOperator? op = some sign) (hk : t.kind = .int) (hlit : IntLiteral.ofText t.text = .ok lit)
    (hwidth : lit.width = none) : g.unaryOperand start op c ⟨cs, t :: rest, ds, ns⟩ =
      (some ⟨.literal (.int { lit with sign := some sign }), .through start [t]⟩, ⟨t :: cs, rest, ds, ns⟩) := by
  have hfolded : ExprForm.withSign? sign (.literal (.int lit)) = some (.literal (.int { lit with sign := some sign })) := by
    rw [ExprForm.withSign?, hwidth]
    rfl
  rw [unaryOperand, hsign]
  show (isNext .int >>= _) _ _ = _
  rw [bind_of_some (isNext_of_kind hk)]
  show (g.primary >>= _) _ _ = _
  rw [bind_of_some (primary_of_int hk hlit)]
  simp only [hfolded]
  rfl

section Levels

variable (inner : ∀ min, Simulates far n n (ReplacedExpr far) (full.innerExpr min) (full.innerExpr min))

include inner

/-- What stands behind an opening parenthesis. -/
theorem simulates_group (start start' : Nat) : Simulates far n n (ReplacedExpr far)
    (do
      let e ← full.innerExpr 0
      expectPunct .rparen
      return ⟨e.form, ← spanFrom start⟩)
    (do
      let e ← full.innerExpr 0
      expectPunct .rparen
      return ⟨e.form, ← spanFrom start'⟩) := by
  refine (inner 0).bind fun read e e' he => .expectPunct (by decide) (.spanned (Nat.sub_le n 1) fun _ _ => ?_)
  rw [List.append_nil]
  exact he

/-- What stands behind an opening brace. -/
theorem simulates_concat (start start' : Nat) : Simulates far n n (ReplacedExpr far)
    (do
      let items ← separated .comma (full.innerExpr 0)
      expectPunct .rbrace
      return ⟨.concat items, ← spanFrom start⟩)
    (do
      let items ← separated .comma (full.innerExpr 0)
      expectPunct .rbrace
      return ⟨.concat items, ← spanFrom start'⟩) := by
  refine (Simulates.separated (inner 0)).bind fun read es es' hes =>
    .expectPunct (by decide) (.spanned (Nat.sub_le n 1) fun _ _ => ?_)
  rw [List.append_nil]
  exact .concat hes

theorem simulates_primary : Simulates far (n + 1) n (ReplacedExpr far) full.primary full.primary := by
  rintro c d ⟨cs, ts, ds, ns⟩ ⟨cs', ts', ds', ns'⟩ ops ⟨htokens, hbound, hclean, hclean', hreach⟩
  cases htokens with
  | nil => exact .of_none rfl rfl
  | @symbol t t' p _ us us' kind kind' undotted more =>
    have hnext : State.Parallel far n ops ⟨t :: cs, us, ds, ns⟩ ⟨t' :: cs', us', ds', ns'⟩ :=
      ⟨more, Nat.le_of_succ_le_succ hbound, hclean, hclean', fun h => hreach h.cons⟩
    by_cases hquestion : p = .question
    · subst hquestion
      rw [primary_of_question kind, primary_of_question kind']
      exact .read (List.nil_append ops).symm .dontCare hnext
    by_cases hlparen : p = .lparen
    · subst hlparen
      rw [primary_of_lparen kind, primary_of_lparen kind']
      exact simulates_group inner _ _ c d _ _ ops hnext
    by_cases hlbrace : p = .lbrace
    · subst hlbrace
      rw [primary_of_lbrace kind, primary_of_lbrace kind']
      exact simulates_concat inner _ _ c d _ _ ops hnext
    have hother := And.intro hquestion (And.intro hlparen hlbrace)
    exact .of_none (primary_of_punct kind hother) (primary_of_punct kind' hother)
  | member dotted dotted' =>
    have hdot : Punct.dot ≠ .question ∧ Punct.dot ≠ .lparen ∧ Punct.dot ≠ .lbrace := by decide
    exact .of_none (primary_of_punct dotted hdot) (primary_of_punct dotted' hdot)
  | @operand t t' _ ops us us' kind stands more =>
    have hnext : State.Parallel far n ops ⟨t :: cs, us, ds, ns⟩ ⟨t' :: cs', us', ds', ns'⟩ :=
      ⟨more, Nat.le_of_succ_le_succ hbound, hclean, hclean', fun h => hreach h.cons⟩
    rw [primary_of_ident kind]
    cases stands with
    | name kind' text =>
      rw [primary_of_ident kind', text]
      exact .read (List.singleton_append).symm (.operand t.text none) hnext
    | @literal lit kind' denotes =>
      rw [primary_of_int kind' denotes]
      exact .read (List.singleton_append).symm (.operand t.text (some lit)) hnext

/-! ## Suffixes -/

section Suffixes

variable {sign : Option Sign} {ops : Operands} {a a' : Expr} (h : Replaced far ops sign a.form a'.form)

include h

/-- What stands behind the parenthesis of a call. -/
theorem simulates_call (start start' : Nat) : Simulates far n n (ReplacedRound far sign ops)
    (do
      let args ← enclosed .rparen (full.innerExpr 0)
      return .again ⟨.call a args, ← spanFrom start⟩)
    (do
      let args ← enclosed .rparen (full.innerExpr 0)
      return .again ⟨.call a' args, ← spanFrom start'⟩) := by
  refine (Simulates.enclosed (inner 0)).bind fun read args args' hargs => .spanned (Nat.le_refl n) fun _ _ => ?_
  rw [List.append_nil]
  exact .again (.call h hargs)

theorem simulates_bitsOf :
    Simulates far n n (fun more => Replaced far (ops ++ more) sign) (full.bitsOf a) (full.bitsOf a') := by
  have hlower := (inner 0).weaken (Nat.sub_le n 1) (Nat.le_refl n) fun _ _ _ => id
  refine (inner 0).bind fun read hi hi' hhi => .accept (by decide) ?_ ?_
  · simp only [if_true, Parser.map_eq_bind, Parser.bind_assoc, Parser.pure_bind]
    refine hlower.bind fun read' lo lo' hlo => .expectPunct (by decide) (.value (Nat.sub_le n 1) ?_)
    rw [List.append_nil]
    exact .range h hhi hlo
  · simp only [Bool.false_eq_true, if_false, Parser.pure_bind]
    refine .expectPunct (by decide) (.value (Nat.sub_le n 1) ?_)
    rw [List.append_nil]
    exact .bit h hhi

theorem simulates_memberNamed (name : String) :
    Simulates far n n (fun more => Replaced far (ops ++ more) sign) (full.memberNamed a name)
      (full.memberNamed a' name) := by
  refine .isNext (by decide) fun b => ?_
  cases b with
  | true =>
    have hargs := (Simulates.enclosed (inner 0)).weaken (Nat.sub_le n 1) (Nat.le_refl n) fun _ _ _ => id
    simp only [if_true, arguments, Parser.bind_assoc]
    refine .expectPunct (by decide) (hargs.bind fun read args args' hargs => .value (Nat.le_refl n) ?_)
    rw [List.append_nil]
    exact .methodCall h hargs
  | false =>
    refine .value (Nat.le_refl n) ?_
    rw [List.append_nil]
    exact .field h

theorem simulates_suffix : Simulates far (n + 1) (n + 1) (ReplacedRound far sign ops) (full.suffix a) (full.suffix a') := by
  rintro c d ⟨cs, ts, ds, ns⟩ ⟨cs', ts', ds', ns'⟩ more hs
  have hdone : (∀ t ∈ ts.head?, t.kind.startsSuffix = false) → (∀ t ∈ ts'.head?, t.kind.startsSuffix = false) →
      Agree far (n + 1) (ReplacedRound far sign ops) more (full.suffix a c ⟨cs, ts, ds, ns⟩)
        (full.suffix a' d ⟨cs', ts', ds', ns'⟩) := by
    intro hhead hhead'
    rw [suffix_of_head a hhead, suffix_of_head a' hhead']
    refine .read (List.nil_append more).symm (.done ?_) hs
    rw [List.append_nil]
    exact h
  obtain ⟨htokens, hbound, hclean, hclean', hreach⟩ := hs
  cases htokens with
  | nil => exact hdone nofun nofun
  | @symbol t t' p _ us us' kind kind' undotted rest =>
    have hnext : State.Parallel far n more ⟨t :: cs, us, ds, ns⟩ ⟨t' :: cs', us', ds', ns'⟩ :=
      ⟨rest, Nat.le_of_succ_le_succ hbound, hclean, hclean', fun h => hreach h.cons⟩
    by_cases hlparen : p = .lparen
    · subst hlparen
      rw [suffix_of_lparen a kind, suffix_of_lparen a' kind']
      exact (simulates_call inner h _ _ c d _ _ more hnext).weaken (Nat.le_succ n) fun _ _ _ => id
    by_cases hlbracket : p = .lbracket
    · subst hlbracket
      rw [suffix_eq_bitsOf a kind, suffix_eq_bitsOf a' kind']
      exact (simulates_roundOf _ _ (simulates_bitsOf inner h) c d _ _ more hnext).weaken (Nat.le_succ n) fun _ _ _ => id
    have hhead : (Kind.punct p).startsSuffix = false := by
      cases p <;> first | exact absurd rfl hlparen | exact absurd rfl hlbracket | exact absurd rfl undotted | rfl
    refine hdone ?_ ?_
    · rintro _ ⟨⟩
      rw [kind, hhead]
    · rintro _ ⟨⟩
      rw [kind', hhead]
  | @member dot dot' t t' _ us us' dotted dotted' kind kind' text rest =>
    have hnext : State.Parallel far n more ⟨t :: dot :: cs, us, ds, ns⟩ ⟨t' :: dot' :: cs', us', ds', ns'⟩ :=
      ⟨rest, Nat.le_of_succ_le_succ (Nat.le_of_succ_le hbound), hclean, hclean', fun h => hreach h.cons.cons⟩
    rw [suffix_eq_memberNamed a dotted kind, suffix_eq_memberNamed a' dotted' kind', text]
    have hround := simulates_roundOf a.span.start a'.span.start (simulates_memberNamed inner h t.text)
    exact (hround c d _ _ more hnext).weaken (Nat.le_succ n) fun _ _ _ => id
  | operand kind stands rest =>
    refine hdone ?_ ?_
    · rintro _ ⟨⟩
      rw [kind]
      rfl
    · rintro _ ⟨⟩
      exact stands.holds (P := fun k => k.startsSuffix = false) rfl rfl

end Suffixes

theorem simulates_suffixes {sign : Option Sign} {ops : Operands} {a a' : Expr} (h : Replaced far ops sign a.form a'.form) :
    Simulates far (n + 1) (n + 1) (fun more e e' => Replaced far (ops ++ more) sign e.form e'.form) (full.suffixes a)
      (full.suffixes a') :=
  .repeatUntil (R := fun ops (e e' : Expr) => Replaced far ops sign e.form e'.form)
    (S := fun ops (e e' : Expr) => Replaced far ops sign e.form e'.form) (fun _ _ _ h => simulates_suffix inner h) h

/-- An operand, and the suffixes behind. -/
theorem simulates_suffixed {m : Nat} {p q : Parser Expr} (h : Simulates far m n (ReplacedExpr far) p q) :
    Simulates far m (n + 1) (ReplacedExpr far) (p >>= full.suffixes) (q >>= full.suffixes) :=
  h.bind fun _ _ _ he => (simulates_suffixes inner he).weaken (Nat.le_succ n) (Nat.le_refl _) fun _ _ _ => id

/-! ## Unary operators -/

/-- The operand of a unary operator, where no literal takes a sign. -/
theorem simulates_unsigned (op : UnaryOp) (start start' : Nat) : Simulates far n n (ReplacedExpr far)
    (do
      let e ← full.innerExpr unaryPower
      return ⟨.unary op e, ← spanFrom start⟩)
    (do
      let e ← full.innerExpr unaryPower
      return ⟨.unary op e, ← spanFrom start'⟩) := by
  refine (inner unaryPower).bind fun read e e' he => .spanned (Nat.le_refl n) fun _ _ => ?_
  rw [List.append_nil]
  exact .unary he

section Signed

variable {op : UnaryOp} {sign : Sign} {lit : IntLiteral} {t t' : Token} {ts ts' cs' : List Token} {ds' : List Diagnostic}
  {ns' : List NodeSpan} {ops : Operands} {d : Setting}

omit inner in
/-- No suffix stands behind a signed literal, unless that is allowed. -/
theorem unsuffixed_or_far (kind' : t'.kind = .int) (hliteral : LiteralSuffix (t' :: ts') → far) :
    (∀ u ∈ ts'.head?, u.kind.startsSuffix = false) ∨ far := by
  refine or_iff_not_imp_left.mpr fun hsuffix => ?_
  obtain ⟨u, hu, hstarts⟩ : ∃ u ∈ ts'.head?, u.kind.startsSuffix ≠ false := by
    simpa only [not_forall, exists_prop] using hsuffix
  obtain ⟨us, rfl⟩ := List.head?_eq_some_iff.mp hu
  exact hliteral ⟨t', u, us, rfl, kind', Bool.not_eq_false _ ▸ hstarts⟩

/-- A sign in front of a name and its suffixes, and the same sign in front of a literal and the same suffixes: there the
suffixes are those of the signed literal. -/
theorem agree_signed (hsign : Sign.ofOperator? op = some sign) (kind : t.kind = .ident) (kind' : t'.kind = .int)
    (denotes : IntLiteral.ofText t'.text = .ok lit) (width : lit.width = none)
    (hs : State.Parallel far n ops ⟨t :: cs, ts, ds, ns⟩ ⟨t' :: cs', ts', ds', ns'⟩)
    (hliteral : LiteralSuffix (t' :: ts') → far) (start start' : Nat) :
    Agree far (n + 1) (ReplacedExpr far) ((t.text, some lit) :: ops)
      ((full.unaryOperand start op >>= full.suffixes) c ⟨cs, t :: ts, ds, ns⟩)
      ((full.unaryOperand start' op >>= full.suffixes) d ⟨cs', t' :: ts', ds', ns'⟩) := by
  have hleaf : Replaced far [(t.text, some lit)] (some sign) (Expr.form ⟨.var t.text, .through t.span.start [t]⟩)
      (Expr.form ⟨.literal (.int { lit with sign := some sign }), .through start' [t']⟩) := .signed t.text lit sign
  have hsuffixes := simulates_suffixes inner hleaf c d _ _ ops (hs.weaken (Nat.le_succ n))
  have hint : ∀ u ∈ (t :: ts).head?, u.kind ≠ .int := by
    rintro _ ⟨⟩
    simp [kind]
  -- the name is read with its suffixes inside the operand of the sign, and the literal before them
  have hname : UnaryOp.ofKind? t.kind = none := by
    rw [kind]
    rfl
  rw [bind_of_some (unaryOperand_of_int start' hsign kind' denotes width), bind_apply,
    unaryOperand_eq start op hint, innerExpr_eq, expr, bind_apply, bind_apply, unary_of_none hname, primary_of_ident kind]
  dsimp only
  rw [bind_apply]
  generalize hrun : full.suffixes ⟨.var t.text, _⟩ c ⟨t :: cs, ts, ds, ns⟩ = r at hsuffixes ⊢
  generalize full.suffixes _ d _ = r' at hsuffixes ⊢
  cases hsuffixes with
  | failed => exact .failed _ _
  | @read read left e e' s s' split value alike =>
    have hhead := unsuffixed_of_suffixes hrun
    have hdone : full.operations unaryPower e c s = (some e, s) :=
      repeatUntil_of_leads .refl (operation_of_stops (alike.tokens.stops hhead) e)
    have hlast : full.suffixes ⟨.unary op e, s.spanFrom start⟩ c s = (some ⟨.unary op e, s.spanFrom start⟩, s) :=
      suffixes_of_head _ hhead
    have hreach : far ∨ ∃ name, e.form = .var name := by
      rcases unsuffixed_or_far kind' hliteral with hsuffix | hfar
      · cases hrun.symm.trans (suffixes_of_head _ (hs.tokens.unsuffixed hsuffix))
        exact .inr ⟨_, rfl⟩
      · exact .inl hfar
    have hsplit : (t.text, some lit) :: ops = [(t.text, some lit)] ++ read ++ left := by
      rw [split]
      rfl
    dsimp only
    rw [hdone]
    show Agree far _ _ _ (full.suffixes ⟨.unary op e, s.spanFrom start⟩ c s) _
    rw [hlast]
    exact .read hsplit (.sign hsign value hreach) alike

end Signed

/-- A unary operator with its operand, and the suffixes behind. -/
theorem agree_unary {op : UnaryOp} {ts ts' cs' : List Token} {ds' : List Diagnostic} {ns' : List NodeSpan} {ops : Operands}
    {d : Setting} (hs : State.Parallel far n ops ⟨cs, ts, ds, ns⟩ ⟨cs', ts', ds', ns'⟩)
    (hliteral : ∀ sign, Sign.ofOperator? op = some sign → LiteralSuffix ts' → far) (start start' : Nat) :
    Agree far (n + 1) (ReplacedExpr far) ops ((full.unaryOperand start op >>= full.suffixes) c ⟨cs, ts, ds, ns⟩)
      ((full.unaryOperand start' op >>= full.suffixes) d ⟨cs', ts', ds', ns'⟩) := by
  have hunsigned := (simulates_suffixed inner (simulates_unsigned inner op start start')) c d _ _ ops hs
  cases hsign : Sign.ofOperator? op with
  | none =>
    rw [unaryOperand, unaryOperand, hsign]
    exact hunsigned
  | some sign =>
    have hint : ∀ t ∈ ts.head?, t.kind ≠ .int := hs.tokens.head (P := fun k => k ≠ .int) nofun nofun
    by_cases hint' : ∀ t ∈ ts'.head?, t.kind ≠ .int
    · rw [bind_of_eq (unaryOperand_eq start op hint), bind_of_eq (unaryOperand_eq start' op hint')]
      exact hunsigned
    · obtain ⟨htokens, hbound, hclean, hclean', hreach⟩ := hs
      cases htokens with
      | nil => exact absurd nofun hint'
      | symbol kind kind' => exact absurd (by rintro _ ⟨⟩; simp [kind']) hint'
      | member dotted dotted' => exact absurd (by rintro _ ⟨⟩; simp [dotted']) hint'
      | operand kind stands more =>
        cases stands with
        | name kind' => exact absurd (by rintro _ ⟨⟩; simp [kind']) hint'
        | literal kind' denotes width =>
          exact agree_signed inner hsign kind kind' denotes width
            ⟨more, Nat.le_of_succ_le hbound, hclean, hclean', fun h => hreach h.cons⟩ (hliteral sign hsign) start start'

/-- An operand with its unary operators and suffixes. -/
theorem simulates_operand :
    Simulates far (n + 1) (n + 1) (ReplacedExpr far) (full.unary >>= full.suffixes) (full.unary >>= full.suffixes) := by
  rintro c d ⟨cs, ts, ds, ns⟩ ⟨cs', ts', ds', ns'⟩ ops hs
  have hplain := simulates_suffixed inner (simulates_primary inner) c d _ _ ops hs
  have hprimary : (∀ t ∈ ts.head?, UnaryOp.ofKind? t.kind = none) → (∀ t ∈ ts'.head?, UnaryOp.ofKind? t.kind = none) →
      Agree far (n + 1) (ReplacedExpr far) ops ((full.unary >>= full.suffixes) c ⟨cs, ts, ds, ns⟩)
        ((full.unary >>= full.suffixes) d ⟨cs', ts', ds', ns'⟩) := by
    intro h h'
    rw [bind_of_eq (unary_of_head h), bind_of_eq (unary_of_head h')]
    exact hplain
  obtain ⟨htokens, hbound, hclean, hclean', hreach⟩ := hs
  cases htokens with
  | nil => exact hprimary nofun nofun
  | @symbol t t' p _ us us' kind kind' undotted more =>
    have hnext : State.Parallel far n ops ⟨t :: cs, us, ds, ns⟩ ⟨t' :: cs', us', ds', ns'⟩ :=
      ⟨more, Nat.le_of_succ_le_succ hbound, hclean, hclean', fun h => hreach h.cons⟩
    cases hop : UnaryOp.ofKind? (.punct p) with
    | none => exact hprimary (by rintro _ ⟨⟩; rw [kind, hop]) (by rintro _ ⟨⟩; rw [kind', hop])
    | some op =>
      rw [bind_of_eq (unary_of_some (kind.symm ▸ hop)), bind_of_eq (unary_of_some (kind'.symm ▸ hop))]
      have hliteral : ∀ sign, Sign.ofOperator? op = some sign → LiteralSuffix us' → far := fun _ hsign h =>
        hreach (.of_literalSuffix (kind'.symm ▸ hop) hsign h)
      exact agree_unary inner hnext hliteral t.span.start t'.span.start
  | member dotted dotted' =>
    exact hprimary (by rintro _ ⟨⟩; rw [dotted]; rfl) (by rintro _ ⟨⟩; rw [dotted']; rfl)
  | operand kind stands more =>
    refine hprimary (by rintro _ ⟨⟩; rw [kind]; rfl) ?_
    rintro _ ⟨⟩
    exact stands.holds (P := fun k => UnaryOp.ofKind? k = none) rfl rfl

/-! ## Operations -/

/-- A conditional with its conditions. -/
theorem simulates_conditional {ops : Operands} (p p' : Predicate) (h : ReplacedAll far ops p.conjuncts p'.conjuncts) :
    Simulates far (n + 1) n (fun more => ReplacedExpr far (ops ++ more)) (full.conditional p) (full.conditional p') := by
  refine .expectPunct (by decide) ((inner 0).bind fun read a a' ha => .expectPunct (by decide) ?_)
  have helse := (inner conditionalPower).weaken (Nat.sub_le n 1) (Nat.le_refl n) fun _ _ _ => id
  refine helse.bind fun read' b b' hb => .spanned (Nat.le_refl n) fun _ _ => ?_
  rw [List.append_nil]
  exact .cond h ha hb

/-- Conditions that lead to a conditional. -/
theorem simulates_conjuncts :
    Simulates far (n + 1) (n + 1) (ReplacedAll far) full.conjunctsOfConditional full.conjunctsOfConditional := by
  have hround : ∀ ops es es', ReplacedAll far ops es es' → Simulates far (n + 1) (n + 1)
      (fun more => Round.Both (ReplacedAll far (ops ++ more)) (ReplacedAll far (ops ++ more)))
      (full.conjunctRound (conditionalPower + 1) es) (full.conjunctRound (conditionalPower + 1) es') := by
    intro ops es es' hes
    refine .accept (by decide) ((inner _).bind fun read e e' he => .value (Nat.le_succ n) (.again ?_))
      (.value (Nat.le_refl _) (.done ?_))
    · rw [List.append_nil]
      exact hes.append (.one he)
    · rw [List.append_nil]
      exact hes
  have hall := Simulates.repeatUntil (R := (ReplacedAll far)) (S := (ReplacedAll far)) hround .nil
  refine Simulates.bind hall fun read es es' hes => .isNext (by decide) fun b => ?_
  rw [hes.isEmpty_eq]
  cases !es.isEmpty && b with
  | true =>
    refine .value (Nat.le_refl _) ?_
    rw [List.append_nil]
    exact hes
  | false => exact .fail

theorem simulates_chained {ops : Operands} {a a' : Expr} (h : Replaced far ops none a.form a'.form) :
    Simulates far (n + 1) (n + 1) (ReplacedRound far none ops) (full.chained a) (full.chained a') := by
  have hmoves := onward_full.conjunctsOfConditional
  refine .tentatively (simulates_conjuncts inner) hmoves hmoves (fun read es es' hes => ?_)
    (.value (Nat.le_refl _) (.done ?_))
  · refine .look (fun _ _ => ⟨_, rfl⟩) (fun _ _ => ⟨_, rfl⟩) fun span span' => ?_
    have hcond := simulates_conditional inner ⟨a :: es, span⟩ ⟨a' :: es', span'⟩ (.cons h hes)
    refine hcond.bind fun more e e' he => .value (Nat.le_succ n) (.again ?_)
    rw [List.append_nil, ← List.append_assoc]
    exact he
  · rw [List.append_nil]
    exact h

/-- What stands behind a binary operator. -/
theorem simulates_rhs (op : BinaryOp) {ops : Operands} {a a' : Expr} (h : Replaced far ops none a.form a'.form) :
    Simulates far n (n + 1) (ReplacedRound far none ops)
      (do
        let b ← full.innerExpr (op.power + 1)
        return .again ⟨.binary op a b, ⟨a.span.start, b.span.stop⟩⟩)
      (do
        let b ← full.innerExpr (op.power + 1)
        return .again ⟨.binary op a' b, ⟨a'.span.start, b.span.stop⟩⟩) := by
  refine (inner (op.power + 1)).bind fun read b b' hb => .value (Nat.le_succ n) (.again ?_)
  rw [List.append_nil]
  exact .binary h hb

theorem simulates_operation (min : Nat) {ops : Operands} {a a' : Expr} (h : Replaced far ops none a.form a'.form) :
    Simulates far (n + 1) (n + 1) (ReplacedRound far none ops) (full.operation min a) (full.operation min a') := by
  rintro c d ⟨cs, ts, ds, ns⟩ ⟨cs', ts', ds', ns'⟩ more hs
  have hdone : (∀ t ∈ ts.head?, t.kind.startsOperation min = false) → (∀ t ∈ ts'.head?, t.kind.startsOperation min = false) →
      Agree far (n + 1) (ReplacedRound far none ops) more (full.operation min a c ⟨cs, ts, ds, ns⟩)
        (full.operation min a' d ⟨cs', ts', ds', ns'⟩) := by
    intro hhead hhead'
    rw [operation_of_head hhead, operation_of_head hhead']
    refine .read (List.nil_append more).symm (.done ?_) hs
    rw [List.append_nil]
    exact h
  obtain ⟨htokens, hbound, hclean, hclean', hreach⟩ := hs
  cases htokens with
  | nil => exact hdone nofun nofun
  | @symbol t t' p _ us us' kind kind' undotted rest =>
    cases hstarts : (Kind.punct p).startsOperation min with
    | false => exact hdone (by rintro _ ⟨⟩; rw [kind, hstarts]) (by rintro _ ⟨⟩; rw [kind', hstarts])
    | true =>
      have hs : State.Parallel far (n + 1) more ⟨cs, t :: us, ds, ns⟩ ⟨cs', t' :: us', ds', ns'⟩ :=
        ⟨.symbol kind kind' undotted rest, hbound, hclean, hclean', hreach⟩
      rcases Kind.eq_of_startsOperation hstarts with ⟨hq, hmin⟩ | ⟨ha, hmin⟩ | hm | ⟨op, hop, hmin⟩
      · cases hq
        rw [operation_of_question a kind, operation_of_question a' kind', if_pos hmin, if_pos hmin]
        have hcond := simulates_conditional inner ⟨[a], a.span⟩ ⟨[a'], a'.span⟩ (.one h)
        refine hcond.bind (fun read e e' he => ?_) c d _ _ more hs
        refine .value (Nat.le_succ n) (.again ?_)
        rw [List.append_nil]
        exact he
      · cases ha
        rw [operation_of_and a kind, operation_of_and a' kind', if_pos hmin, if_pos hmin]
        exact simulates_chained inner h c d _ _ more hs
      · cases hm
      · rw [operation_of_binary a (kind.symm ▸ hop), operation_of_binary a' (kind'.symm ▸ hop), if_pos hmin, if_pos hmin,
          bind_of_some skip_cons, bind_of_some skip_cons]
        have hnext : State.Parallel far n more ⟨t :: cs, us, ds, ns⟩ ⟨t' :: cs', us', ds', ns'⟩ :=
          ⟨rest, Nat.le_of_succ_le_succ hbound, hclean, hclean', fun h => hreach h.cons⟩
        exact simulates_rhs inner op h c d _ _ more hnext
  | member dotted dotted' =>
    exact hdone (by rintro _ ⟨⟩; rw [dotted]; rfl) (by rintro _ ⟨⟩; rw [dotted']; rfl)
  | operand kind stands rest =>
    refine hdone (by rintro _ ⟨⟩; rw [kind]; rfl) ?_
    rintro _ ⟨⟩
    exact stands.holds (P := fun k => k.startsOperation min = false) rfl rfl

theorem simulates_operations (min : Nat) {ops : Operands} {a a' : Expr} (h : Replaced far ops none a.form a'.form) :
    Simulates far (n + 1) (n + 1) (fun more => ReplacedExpr far (ops ++ more)) (full.operations min a)
      (full.operations min a') :=
  .repeatUntil (R := (ReplacedExpr far)) (S := (ReplacedExpr far)) (fun _ _ _ h => simulates_operation inner min h) h

/-- One more level. -/
theorem simulates_expr (min : Nat) : Simulates far (n + 1) (n + 1) (ReplacedExpr far) (full.expr min) (full.expr min) := by
  have hassoc : full.expr min = (full.unary >>= full.suffixes) >>= full.operations min := by
    simp only [Grammar.expr, Parser.bind_assoc]
  rw [hassoc]
  exact (simulates_operand inner).bind fun _ _ _ he => simulates_operations inner min he

end Levels

/-- Expressions are read alike where the operands are replaced. -/
theorem simulates_innerExpr (n min : Nat) :
    Simulates far n n (ReplacedExpr far) (full.innerExpr min) (full.innerExpr min) := by
  induction n generalizing min with
  | zero =>
    rintro c d ⟨cs, ts, ds, ns⟩ ⟨cs', ts', ds', ns'⟩ ops ⟨htokens, hbound, -, -⟩
    obtain rfl : ts = [] := List.length_eq_zero_iff.mp (Nat.le_zero.mp hbound)
    cases htokens
    rw [innerExpr_eq]
    exact .of_none rfl rfl
  | succ n ih =>
    rw [innerExpr_eq]
    exact simulates_expr ih min

end Grammar

/-! ## Texts -/

/-- Literals are read as names are.  Where integer literals without a width stand in the place of some operands of a text
that is read as an expression, the text with the literals is read as well, and its tree has the literals in the place of
these operands; a sign before one of them may have become part of the literal.  The literal is then the whole operand of the
sign, unless somewhere in the text a sign, a literal and the beginning of a suffix stand in a row: in that case the suffixes
can be those of the signed literal.  Where the first text is not read, neither is the second. -/
theorem literals_read_as_names {source source' : String} {ops : Operands} (hsource : LexicalError.ofText source = [])
    (hsource' : LexicalError.ofText source' = [])
    (h : Replaces ops (Token.significant source) (Token.significant source')) :
    (∀ e, parseExpression source = .ok e → ∃ e', parseExpression source' = .ok e' ∧
        Replaced (SignedSuffix (Token.significant source')) ops none e.form e'.form) ∧
      ((∀ e, parseExpression source ≠ .ok e) → ∀ e', parseExpression source' ≠ .ok e') := by
  have hagree := Grammar.simulates_innerExpr _ 0 (.ofText source .collectAll) (.ofText source' .collectAll) (.ofText source)
    (.ofText source') ops ⟨h, Nat.le_refl _, rfl, rfl, id⟩
  generalize hrun : Grammar.full.innerExpr 0 (.ofText source .collectAll) (.ofText source) = r at hagree
  generalize hrun' : Grammar.full.innerExpr 0 (.ofText source' .collectAll) (.ofText source') = r' at hagree
  cases hagree with
  | failed s s' =>
    refine ⟨fun e he => ?_, fun _ e' he' => ?_⟩
    · obtain ⟨-, s₁, hyields, -⟩ := parseOnly_eq_ok.mp he
      cases hrun.symm.trans hyields
    · obtain ⟨-, s₁, hyields, -⟩ := parseOnly_eq_ok.mp he'
      cases hrun'.symm.trans hyields
  | @read _ left e e' s s' split value alike =>
    have hend : s.rest = [] ↔ s'.rest = [] := by
      rw [← List.length_eq_zero_iff, ← List.length_eq_zero_iff, alike.tokens.length_eq]
    refine ⟨fun e₁ he => ?_, fun hnone e₁ he' => ?_⟩
    · obtain ⟨-, s₁, hyields, hrest, -⟩ := parseOnly_eq_ok.mp he
      cases hrun.symm.trans hyields
      have hleft : left = [] := by
        have htokens := alike.tokens
        rw [hrest] at htokens
        exact htokens.of_nil
      rw [hleft, List.append_nil] at split
      exact ⟨e', parseOnly_eq_ok.mpr ⟨hsource', s', hrun', hend.mp hrest, alike.clean'⟩, split ▸ value⟩
    · obtain ⟨-, s₁, hyields, hrest, -⟩ := parseOnly_eq_ok.mp he'
      cases hrun'.symm.trans hyields
      exact hnone e (parseOnly_eq_ok.mpr ⟨hsource, s, hrun, hend.mpr hrest, alike.clean⟩)

/-- A decimal literal. -/
def IntLiteral.decimal (digits : String) : IntLiteral := ⟨none, none, .decimal, false, digits⟩

theorem literals_read_as_names_bit :
    Replaces [("x", some (.decimal "1")), ("i", some (.decimal "0"))] (Token.significant "- x [ i ]")
      (Token.significant "- 1 [ 0 ]") ∧
    ∃ e e', parseExpression "- x [ i ]" = .ok e ∧ parseExpression "- 1 [ 0 ]" = .ok e' ∧
      Replaced (SignedSuffix (Token.significant "- 1 [ 0 ]")) [("x", some (.decimal "1")), ("i", some (.decimal "0"))]
        none e.form e'.form := by
  have htokens : Token.significant "- x [ i ]" = [⟨.punct .minus, "-", ⟨0, 1⟩⟩, ⟨.ident, "x", ⟨2, 3⟩⟩,
      ⟨.punct .lbracket, "[", ⟨4, 5⟩⟩, ⟨.ident, "i", ⟨6, 7⟩⟩, ⟨.punct .rbracket, "]", ⟨8, 9⟩⟩] := by decide
  have htokens' : Token.significant "- 1 [ 0 ]" = [⟨.punct .minus, "-", ⟨0, 1⟩⟩, ⟨.int, "1", ⟨2, 3⟩⟩,
      ⟨.punct .lbracket, "[", ⟨4, 5⟩⟩, ⟨.int, "0", ⟨6, 7⟩⟩, ⟨.punct .rbracket, "]", ⟨8, 9⟩⟩] := by decide
  have hreplaces : Replaces [("x", some (.decimal "1")), ("i", some (.decimal "0"))] (Token.significant "- x [ i ]")
      (Token.significant "- 1 [ 0 ]") := by
    rw [htokens, htokens']
    have hbit : Replaces [("i", some (.decimal "0"))]
        [⟨.punct .lbracket, "[", ⟨4, 5⟩⟩, ⟨.ident, "i", ⟨6, 7⟩⟩, ⟨.punct .rbracket, "]", ⟨8, 9⟩⟩]
        [⟨.punct .lbracket, "[", ⟨4, 5⟩⟩, ⟨.int, "0", ⟨6, 7⟩⟩, ⟨.punct .rbracket, "]", ⟨8, 9⟩⟩] := by
      refine .symbol (p := .lbracket) rfl rfl nofun (.operand (t := ⟨.ident, "i", ⟨6, 7⟩⟩) rfl (.literal rfl rfl rfl) ?_)
      exact .symbol (p := .rbracket) rfl rfl nofun .nil
    exact .symbol (p := .minus) rfl rfl nofun
      (.operand (t := ⟨.ident, "x", ⟨2, 3⟩⟩) rfl (.literal rfl rfl rfl) hbit)
  have hread : ∃ e, parseExpression "- x [ i ]" = .ok e := ⟨_, rfl⟩
  obtain ⟨e, he⟩ := hread
  obtain ⟨e', he', hreplaced⟩ := (literals_read_as_names rfl rfl hreplaces).1 e he
  exact ⟨hreplaces, e, e', he, he', hreplaced⟩

/-- A bit of a name is selected before the sign in front of it applies, and a bit of a literal after. -/
theorem parseExpression_signed_bit :
    parseExpression "- x [ i ]" = .ok ⟨.unary .neg ⟨.select ⟨.var "x", ⟨2, 3⟩⟩ ⟨.var "i", ⟨6, 7⟩⟩ none, ⟨2, 9⟩⟩, ⟨0, 9⟩⟩ ∧
    parseExpression "- 1 [ 0 ]" = .ok ⟨.select
      ⟨.literal (.int { IntLiteral.decimal "1" with sign := some .minus }), ⟨0, 3⟩⟩
      ⟨.literal (.int (.decimal "0")), ⟨6, 7⟩⟩ none, ⟨0, 9⟩⟩ :=
  ⟨rfl, rfl⟩

end Bluespec
