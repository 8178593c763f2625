import Bluespec.Proofs.GivenTokens
import Bluespec.Proofs.OperatorGrammar
import Bluespec.Proofs.WrittenTypes

/-!
# The rendering of types

A type that has been read from a source is rendered as a text that is read as the same type again.

* **`TypeExpr.shape`** — a type without its places; **`TypeExpr.render_move`** — places are not rendered.
* **`Lexed.number`**, **`Goes.expect`** — a number in front of others, and what it is read as.
* **`TypeExpr.ReadBack`**, **`TypeExpr.ReadBackAll`** — the tokens of a rendered type, or of rendered types with commas
  between them, and what is read from them.
* **`TypeExpr.Written.readBack`** — every type that can be written down is read back.
* **`type_round_trip`** — types that are read from sources.
-/

namespace Bluespec

open Bluespec.Parser

/-! ## Shapes -/

/-- A type without its places. -/
def TypeExpr.shape (t : TypeExpr) : TypeExpr := t.move fun _ => 0

mutual

theorem TypeExpr.render_move (f : Nat → Nat) : ∀ t : TypeExpr, (t.move f).render = t.render
  | ⟨form, span⟩ => by rw [TypeExpr.move, TypeExpr.render, TypeExpr.render, TypeForm.render_move f form]

theorem TypeForm.render_move (f : Nat → Nat) : ∀ form : TypeForm, (form.move f).render = form.render
  | .named name [] => rfl
  | .named name (p :: ps) => by
    rw [TypeForm.move, TypeExpr.moveAll, TypeForm.render, TypeForm.render, TypeExpr.render_move f p,
      TypeExpr.renderRest_move f ps]
  | .var name => rfl
  | .number value => rfl
  | .bits hi lo => rfl

theorem TypeExpr.renderRest_move (f : Nat → Nat) :
    ∀ ps : List TypeExpr, TypeExpr.renderRest (TypeExpr.moveAll f ps) = TypeExpr.renderRest ps
  | [] => rfl
  | p :: ps => by
    rw [TypeExpr.moveAll, TypeExpr.renderRest, TypeExpr.renderRest, TypeExpr.render_move f p,
      TypeExpr.renderRest_move f ps]

end

theorem TypeExpr.render_shape (t : TypeExpr) : t.shape.render = t.render := t.render_move _

theorem TypeExpr.shape_named {name : String} {params params' : List TypeExpr} {span span' : Span}
    (h : params.map shape = params'.map shape) :
    shape ⟨.named name params, span⟩ = shape ⟨.named name params', span'⟩ := by
  have hall : TypeExpr.moveAll (fun _ => 0) params = TypeExpr.moveAll (fun _ => 0) params' := by
    rw [TypeExpr.moveAll_eq, TypeExpr.moveAll_eq]
    exact h
  rw [shape, shape, TypeExpr.move, TypeExpr.move, TypeForm.move, TypeForm.move, hall]
  rfl

/-! ## Single tokens -/

namespace Lexed

variable {offset : Nat} {rest : List Char}

/-- The token of a number at an offset. -/
def numberAt (n offset : Nat) : Token := ⟨.int, n.repr, ⟨offset, offset + Text.byteSize n.repr.toList⟩⟩

/-- A number in front of a character that no number holds. -/
theorem number (n : Nat) (hrest : ∀ d ∈ rest.head?, d ∈ Lexeme.separators) :
    Lexed offset n.repr.toList [numberAt n offset] rest := by
  obtain ⟨c, cs, hcs⟩ := List.exists_cons_of_ne_nil (repr_ne_nil n)
  have hdigits := isDigit_repr n
  rw [hcs, List.forall_mem_cons] at hdigits
  have hlexical : IntText.Lexical ⟨[], none, c :: cs⟩ :=
    .plain hdigits.1 fun d hd => by rw [hdigits.2 d hd, Bool.true_or]
  have hitem : Item.ofLexeme .int offset (c :: cs) = .token (numberAt n offset) := by
    rw [← hcs]
    show Item.token ⟨.int, String.ofList n.repr.toList, _⟩ = _
    rw [String.ofList_toList]
    rfl
  rw [hcs]
  exact one (hlexical.longest?_before hrest) hitem rfl

/-- A hash in front of a parenthesis. -/
theorem hash : Lexed offset ['#'] [symbolAt .hash offset] ('(' :: rest) := by
  refine symbol (p := .hash) (Lexeme.longest?_before (by decide +kernel) fun q d hd => ?_)
  obtain rfl : d = '(' := (Option.some.inj hd).symm
  cases q <;> rfl

/-- A colon in front of a digit. -/
theorem colon (hrest : ∀ d ∈ rest.head?, d.isDigit = true) : Lexed offset [':'] [symbolAt .colon offset] rest := by
  refine symbol (p := .colon) (Lexeme.longest?_before (by decide +kernel) fun q d hd => ?_)
  have hlonger : (Pattern.char (· == ':')).step d = .nothing := by
    rw [Pattern.step, if_neg]
    rintro hc
    have hdigit := hrest d hd
    rw [beq_iff_eq.mp hc] at hdigit
    cases hdigit
  cases q <;> first | rfl | exact hlonger

end Lexed

namespace Parser

variable {cs rest : List Token} {t : Token} {n : Nat}

theorem Goes.expect {k : Kind} (h : t.kind = k) : Goes (expect k) cs [t] t rest := fun _ ns => ⟨ns, expect_of_kind h⟩

theorem plainNumber?_repr (h : n < 2 ^ 64) : plainNumber? n.repr = some n := by
  have hdigits := isDigit_repr n
  have hplain : Text.without '_' n.repr.toList = n.repr.toList := by
    refine List.filter_eq_self.mpr fun c hc => ?_
    rw [bne_iff_ne]
    rintro rfl
    cases hdigits _ hc
  rw [plainNumber?, hplain]
  exact (unsigned?_iff hdigits).mpr ⟨repr_ne_nil n, denotes_repr n, h⟩

theorem goes_bitBound (h : n < 2 ^ 64) (offset : Nat) : Goes bitBound cs [Lexed.numberAt n offset] n rest := by
  have hnumber : plainNumber? (Lexed.numberAt n offset).text = some n := plainNumber?_repr h
  refine Goes.then_ (.expect rfl) ?_
  rw [hnumber]
  exact .value

/-- A type is read from the tokens of its form, with the span of these tokens. -/
theorem goes_typeUpTo {limit : Nat} {ts : List Token} {form : TypeForm}
    (h : Goes (typeForm (typeUpTo limit)) cs (t :: ts) form rest) :
    Goes (typeUpTo (limit + 1)) cs (t :: ts) ⟨form, .through t.span.start (t :: ts)⟩ rest := by
  refine .offset ?_
  obtain hnil | ⟨us, last, hlast⟩ := List.eq_nil_or_concat' (t :: ts)
  · cases hnil
  · rw [hlast] at h ⊢
    rw [Span.through_concat]
    exact h.spanned

/-- Behind a type no parameters and no range follow. -/
structure EndsType (rest : List Token) : Prop where
  hash : Lacks (.punct .hash) rest
  bracket : Lacks (.punct .lbracket) rest

theorem EndsType.of_kind {p : Punct} (h : t.kind = .punct p) (hp : p ≠ .hash ∧ p ≠ .lbracket) : EndsType (t :: rest) :=
  ⟨Lacks.cons h (mt Kind.punct.inj hp.1) rest, Lacks.cons h (mt Kind.punct.inj hp.2) rest⟩

end Parser

/-! ## Reading back -/

namespace TypeExpr

/-- The tokens of a rendered type, and the type that is read from them. -/
structure ReadBack (offset : Nat) (t : TypeExpr) (ts : List Token) (t' : TypeExpr) : Prop where
  same : t'.shape = t.shape
  reads : 0 < ts.length
  starts : ∃ c cs, t.render.toList = c :: cs ∧ c ≠ '*'
  lexed : ∀ rest, (∀ d ∈ rest.head?, d ∈ [',', ')']) → Lexed offset t.render.toList ts rest
  goes : ∀ limit cs rest, ts.length ≤ limit → EndsType rest → Goes (typeUpTo limit) cs ts t' rest

/-- The tokens of rendered types before a closing parenthesis, and the types that are read from them. -/
structure ReadBackAll (offset : Nat) (p : TypeExpr) (ps : List TypeExpr) (ts : List Token) (as : List TypeExpr) :
    Prop where
  same : as.map shape = (p :: ps).map shape
  starts : ∃ c cs, p.render.toList = c :: cs ∧ c ≠ '*'
  lexed : ∀ rest, Lexed offset (p.render ++ renderRest ps).toList ts (')' :: rest)
  goes : ∀ limit n cs rest, ts.length ≤ limit → ts.length ≤ n → EndsType rest → Lacks (.punct .comma) rest →
    Goes (separatedUpTo .comma (typeUpTo limit) n) cs ts as rest

variable {offset : Nat} {t : TypeExpr} {p : TypeExpr} {ps : List TypeExpr}

/-- What the tokens of a form are read as. -/
theorem ReadBack.of_form {form form' : TypeForm} {span : Span} {first : Token} {ts : List Token}
    (hshape : ∀ span', shape ⟨form', span'⟩ = shape ⟨form, span⟩)
    (hstarts : ∃ c cs, form.render.toList = c :: cs ∧ c ≠ '*')
    (hlexed : ∀ rest, (∀ d ∈ rest.head?, d ∈ [',', ')']) → Lexed offset form.render.toList (first :: ts) rest)
    (hgoes : ∀ limit cs rest, ts.length ≤ limit → EndsType rest →
      Goes (typeForm (typeUpTo limit)) cs (first :: ts) form' rest) :
    ReadBack offset ⟨form, span⟩ (first :: ts) ⟨form', .through first.span.start (first :: ts)⟩ := by
  refine ⟨hshape _, Nat.succ_pos _, hstarts, hlexed, fun limit cs rest hlimit hrest => ?_⟩
  obtain ⟨limit, rfl⟩ : ∃ n, limit = n + 1 :=
    Nat.exists_eq_succ_of_ne_zero (Nat.ne_of_gt (Nat.lt_of_lt_of_le (Nat.succ_pos _) hlimit))
  exact goes_typeUpTo (hgoes limit cs rest (Nat.le_of_succ_le_succ hlimit) hrest)

/-- Types that are read back alone are read back with commas between them. -/
theorem ReadBackAll.of_readBack (hp : ∀ offset, ∃ ts t', ReadBack offset p ts t')
    (hps : ∀ t ∈ ps, ∀ offset, ∃ ts t', ReadBack offset t ts t') (offset : Nat) :
    ∃ ts as, ReadBackAll offset p ps ts as := by
  induction ps generalizing p offset with
  | nil =>
    obtain ⟨ts, t', h⟩ := hp offset
    refine ⟨ts, [t'], congrArg (fun a => [a]) h.same, h.starts, fun rest => ?_,
      fun limit n cs rest hlimit hn hrest hcomma => ?_⟩
    · rw [renderRest, String.append_empty]
      exact h.lexed _ (by rintro d ⟨⟩; decide)
    · obtain ⟨n, rfl⟩ : ∃ m, n = m + 1 := Nat.exists_eq_succ_of_ne_zero (Nat.ne_of_gt (Nat.lt_of_lt_of_le h.reads hn))
      exact goes_separatedUpTo_one (h.goes limit cs rest hlimit hrest) hcomma
  | cons q qs ih =>
    obtain ⟨hq, hqs⟩ := List.forall_mem_cons.mp hps
    obtain ⟨ts, t', h⟩ := hp offset
    obtain ⟨us, as, hall⟩ := ih hq hqs (offset + Text.byteSize p.render.toList + 2)
    let comma := Lexed.symbolAt .comma (offset + Text.byteSize p.render.toList)
    refine ⟨ts ++ comma :: us, t' :: as, ?_, h.starts, fun rest => ?_, fun limit n cs rest hlimit hn hrest hcomma => ?_⟩
    · rw [List.map_cons, List.map_cons, h.same, hall.same]
    · have hchars : (p.render ++ renderRest (q :: qs)).toList =
          p.render.toList ++ ([',', ' '] ++ (q.render ++ renderRest qs).toList) := by
        simp [renderRest]
      rw [hchars]
      exact (h.lexed _ (by rintro d ⟨⟩; decide)).append ((Lexed.symbolSpace .comma).append (hall.lexed rest))
    · rw [List.length_append, List.length_cons] at hlimit hn
      have hreads := h.reads
      obtain ⟨n, rfl⟩ : ∃ m, n = m + 1 := Nat.exists_eq_succ_of_ne_zero (by omega)
      refine goes_separatedUpTo_cons (h.goes limit cs _ (by omega) (.of_kind rfl (by decide))) rfl ?_
      exact hall.goes limit n _ rest (by omega) (by omega) hrest hcomma

theorem starts_identifier {kind : Kind} (x : Identifier kind) (text : String) :
    ∃ c cs, (x.text ++ text).toList = c :: cs ∧ c ≠ '*' := by
  refine ⟨x.first, x.others ++ text.toList, ?_, ?_⟩
  · rw [String.toList_append, Identifier.text, String.toList_ofList]
    rfl
  · intro hstar
    have hstarts := x.starts
    rw [hstar] at hstarts
    cases hstarts

/-- Behind a name that ends a type no name goes on. -/
theorem ends_name {rest : List Char} (h : ∀ d ∈ rest.head?, d ∈ [',', ')']) :
    ∀ d ∈ rest.head?, Lexeme.isWordPart d = false := by
  intro d hd
  have hmem := h d hd
  simp only [List.mem_cons, List.not_mem_nil, or_false] at hmem
  obtain rfl | rfl := hmem <;> rfl

/-- A name with parameters. -/
theorem readBack_named {x : Identifier .typeIdent} {span : Span} {us : List Token} {as : List TypeExpr}
    (h : ReadBackAll (offset + Text.byteSize x.text.toList + 2) p ps us as) :
    ∃ ts t', ReadBack offset ⟨.named x.text (p :: ps), span⟩ ts t' := by
  let o := offset + Text.byteSize x.text.toList
  let closing := Lexed.symbolAt .rparen (o + 2 + Text.byteSize (p.render ++ renderRest ps).toList)
  refine ⟨Lexed.nameAt x offset :: Lexed.symbolAt .hash o :: Lexed.symbolAt .lparen (o + 1) :: (us ++ [closing]), _,
    .of_form (fun _ => shape_named h.same) ?_ (fun rest _ => ?_) fun limit cs rest hlimit _ => ?_⟩
  · have hstarts := starts_identifier x ("#(" ++ p.render ++ renderRest ps ++ ")")
    simpa only [TypeForm.render, String.append_assoc] using hstarts
  · have hchars : (TypeForm.named x.text (p :: ps)).render.toList =
        x.text.toList ++ (['#'] ++ (['('] ++ ((p.render ++ renderRest ps).toList ++ [')']))) := by
      simp [TypeForm.render]
    obtain ⟨c, ds, hc, hstar⟩ := h.starts
    have hopening : Lexed (o + 1) ['('] [Lexed.symbolAt .lparen (o + 1)]
        ((p.render ++ renderRest ps).toList ++ [')'] ++ rest) := by
      refine Lexed.symbol (p := .lparen) (Lexeme.longest?_extended (c := '*') (by decide) fun d hd => ?_)
      rw [String.toList_append, hc] at hd
      cases hd
      exact hstar
    have hclosing : Lexed (o + 2 + Text.byteSize (p.render ++ renderRest ps).toList) [')'] [closing] rest :=
      Lexed.symbol (p := .rparen) (Lexeme.longest?_bracket (by decide) rest)
    have hbehind : Lexed (o + 1) (['('] ++ ((p.render ++ renderRest ps).toList ++ [')']))
        ([Lexed.symbolAt .lparen (o + 1)] ++ (us ++ [closing])) rest := hopening.append ((h.lexed rest).append hclosing)
    have hmarked : Lexed o (['#'] ++ (['('] ++ ((p.render ++ renderRest ps).toList ++ [')'])))
        ([Lexed.symbolAt .hash o] ++ ([Lexed.symbolAt .lparen (o + 1)] ++ (us ++ [closing]))) rest :=
      Lexed.hash.append hbehind
    rw [hchars]
    exact (Lexed.name x rfl (by rintro d ⟨⟩; rfl)).append hmarked
  · rw [List.length_cons, List.length_cons, List.length_append] at hlimit
    have hparams : Goes (separated .comma (typeUpTo limit)) (Lexed.symbolAt .lparen (o + 1) :: Lexed.symbolAt .hash o ::
        Lexed.nameAt x offset :: cs) us as ([closing] ++ rest) := fun c ns =>
      h.goes limit ((us ++ ([closing] ++ rest)).length + 1) _ _ (by omega) (by simp; omega) (.of_kind rfl (by decide))
        (Lacks.cons (show closing.kind = .punct .rparen from rfl) (by decide) _) c ns
    exact .peek (.cons (.expectText rfl) (.cons (.accept rfl) (.cons (.expectPunct rfl)
      (hparams.bind (.cons (.expectPunct rfl) .value)))))

theorem isWordStart_bit : Lexeme.isWordStart 'b' = true := rfl

/-- The word for a bit. -/
def bitWord : Identifier (.keyword .bit) := ⟨'b', ['i', 't'], isWordStart_bit, List.all_eq_true.mp rfl, rfl⟩

/-- A vector of bits. -/
theorem readBack_bits {hi lo : Nat} {span : Span} (hhi : hi < 2 ^ 64) (hlo : lo < 2 ^ 64) :
    ∃ ts t', ReadBack offset ⟨.bits hi lo, span⟩ ts t' := by
  let o := offset + 4 + Text.byteSize hi.repr.toList
  let closing := Lexed.symbolAt .rbracket (o + 1 + Text.byteSize lo.repr.toList)
  have hchars : (TypeForm.bits hi lo).render.toList =
      ['b', 'i', 't'] ++ (['['] ++ (hi.repr.toList ++ ([':'] ++ (lo.repr.toList ++ [']'])))) := by
    simp [TypeForm.render]
  refine ⟨[Lexed.nameAt bitWord offset, Lexed.symbolAt .lbracket (offset + 3), Lexed.numberAt hi (offset + 4),
    Lexed.symbolAt .colon o, Lexed.numberAt lo (o + 1), closing], _,
    .of_form (fun _ => rfl) ⟨'b', _, hchars, by decide⟩ (fun rest _ => ?_) fun limit cs rest _ _ => ?_⟩
  · have hcloses : Lexed (o + 1 + Text.byteSize lo.repr.toList) [']'] [closing] rest :=
      Lexed.symbol (p := .rbracket) (Lexeme.longest?_bracket (by decide) rest)
    have hlow : Lexed (o + 1) (lo.repr.toList ++ [']']) ([Lexed.numberAt lo (o + 1)] ++ [closing]) rest :=
      (Lexed.number lo (by rintro d ⟨⟩; decide)).append hcloses
    have hcolon : Lexed o ([':'] ++ (lo.repr.toList ++ [']']))
        ([Lexed.symbolAt .colon o] ++ ([Lexed.numberAt lo (o + 1)] ++ [closing])) rest := by
      refine Lexed.append (Lexed.colon fun d hd => ?_) hlow
      obtain ⟨c, ds, hc⟩ := List.exists_cons_of_ne_nil (repr_ne_nil lo)
      rw [hc] at hd
      cases hd
      exact isDigit_repr lo _ (hc ▸ List.mem_cons_self)
    have hhigh : Lexed (offset + 4) (hi.repr.toList ++ ([':'] ++ (lo.repr.toList ++ [']'])))
        ([Lexed.numberAt hi (offset + 4)] ++ ([Lexed.symbolAt .colon o] ++ ([Lexed.numberAt lo (o + 1)] ++ [closing])))
        rest := (Lexed.number hi (by rintro d ⟨⟩; decide)).append hcolon
    have hopens : Lexed (offset + 3) (['['] ++ (hi.repr.toList ++ ([':'] ++ (lo.repr.toList ++ [']']))))
        ([Lexed.symbolAt .lbracket (offset + 3)] ++ ([Lexed.numberAt hi (offset + 4)] ++
          ([Lexed.symbolAt .colon o] ++ ([Lexed.numberAt lo (o + 1)] ++ [closing])))) rest :=
      Lexed.append (Lexed.symbol (p := .lbracket) (Lexeme.longest?_bracket (by decide) _)) hhigh
    rw [hchars]
    exact (Lexed.name bitWord rfl (by rintro d ⟨⟩; rfl)).append hopens
  · exact .peek (.cons .skip (.cons (.accept rfl) (.cons (goes_bitBound hhi _) (.cons (.expectPunct rfl)
      (.cons (goes_bitBound hlo _) (.cons (.expectPunct rfl) .value))))))

/-- Every type that can be written down is read back from its rendering. -/
theorem Written.readBack (h : t.Written) (offset : Nat) : ∃ ts t', ReadBack offset t ts t' := by
  induction h generalizing offset with
  | @named x params span hparams ih =>
    cases params with
    | nil =>
      have hstarts := starts_identifier x ""
      rw [String.append_empty] at hstarts
      refine ⟨[Lexed.nameAt x offset], _, .of_form (fun _ => rfl) hstarts
        (fun rest hrest => Lexed.name x rfl (ends_name hrest)) fun limit cs rest _ hrest => ?_⟩
      exact .peek (.cons (.expectText rfl) (.then_ (.accept_of_lacks hrest.hash) .value))
    | cons p ps =>
      obtain ⟨hp, hps⟩ := List.forall_mem_cons.mp ih
      obtain ⟨us, as, hall⟩ := ReadBackAll.of_readBack hp hps (offset + Text.byteSize x.text.toList + 2)
      exact readBack_named hall
  | bit =>
    refine ⟨[Lexed.nameAt bitWord offset], _, .of_form (fun _ => rfl) ⟨'b', _, rfl, by decide⟩
      (fun rest hrest => Lexed.name bitWord rfl (ends_name hrest)) fun limit cs rest _ hrest => ?_⟩
    exact .peek (.cons .skip (.then_ (.accept_of_lacks hrest.bracket) .value))
  | @var x span =>
    have hstarts := starts_identifier x ""
    rw [String.append_empty] at hstarts
    refine ⟨[Lexed.nameAt x offset], _, .of_form (fun _ => rfl) hstarts
      (fun rest hrest => Lexed.name x rfl (ends_name hrest)) fun limit cs rest _ _ => ?_⟩
    exact .peek (.then_ (.expectText rfl) .value)
  | @number n span h =>
    have hstarts : ∃ c cs, n.repr.toList = c :: cs ∧ c ≠ '*' := by
      obtain ⟨c, cs, hc⟩ := List.exists_cons_of_ne_nil (repr_ne_nil n)
      refine ⟨c, cs, hc, ?_⟩
      rintro rfl
      cases isDigit_repr n _ (hc ▸ List.mem_cons_self)
    refine ⟨[Lexed.numberAt n offset], _, .of_form (fun _ => rfl) hstarts
      (fun rest hrest => Lexed.number n fun d hd => ?_) fun limit cs rest _ _ => .peek (.then_ (.expect rfl) ?_)⟩
    · have hmem := hrest d hd
      simp only [List.mem_cons, List.not_mem_nil, or_false] at hmem
      obtain rfl | rfl := hmem <;> decide
    · have hnumber : plainNumber? (Lexed.numberAt n offset).text = some n := plainNumber?_repr h
      rw [hnumber]
      exact .value
  | bits hhi hlo => exact readBack_bits hhi hlo

end TypeExpr

/-! ## Round trip -/

/-- A type at the front of a source, and so a type that is the whole source, is rendered as a text without lexical
errors that is read to its end as the same type, and is rendered as the same text again. -/
theorem type_round_trip (source : String) (c c' : Setting) {t : TypeExpr} {s : State}
    (hrun : Parser.type c (.start (Token.significant source)) = (some t, s)) :
    LexicalError.ofText t.render = [] ∧
      ∃ t' s', Parser.type c' (.start (Token.significant t.render)) = (some t', s') ∧ s'.rest = [] ∧
        s'.diagnostics = [] ∧ t'.shape = t.shape ∧ t'.render = t.render := by
  obtain ⟨-, hwritten⟩ := Parser.makes_type c _ _ _ (fun _ => Token.named_of_significant) hrun
  obtain ⟨ts, t', h⟩ := hwritten.readBack 0
  obtain ⟨htokens, hlexical⟩ := (h.lexed [] nofun).whole
  obtain ⟨ns, hgoes⟩ := h.goes (ts.length + 1) [] [] (Nat.le_succ _) ⟨nofun, nofun⟩ c' []
  rw [List.append_nil] at hgoes
  refine ⟨hlexical, t', ⟨ts.reverse ++ [], [], [], ns⟩, ?_, rfl, rfl, h.same, ?_⟩
  · rw [htokens]
    exact hgoes
  · rw [← t'.render_shape, h.same, t.render_shape]

theorem type_round_trip_vector :
    ∃ t s, Parser.type ⟨19, .collectAll⟩ (.start (Token.significant "Vector#(4,bit[7:0])")) = (some t, s) ∧
      LexicalError.ofText t.render = [] ∧
      ∃ t' s', Parser.type ⟨20, .collectAll⟩ (.start (Token.significant t.render)) = (some t', s') ∧ s'.rest = [] ∧
        s'.diagnostics = [] ∧ t'.shape = t.shape ∧ t'.render = t.render :=
  ⟨_, _, rfl, type_round_trip "Vector#(4,bit[7:0])" _ _ rfl⟩

end Bluespec
