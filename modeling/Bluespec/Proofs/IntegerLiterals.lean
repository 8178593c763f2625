import Bluespec.Literal.Reading
import Bluespec.Proofs.NumberTexts

/-!
# Integer literals

The text of an integer literal is read as the number it denotes wherever it denotes one, and separators between the
digits say nothing.

* **`IntText.plainDigits`**, **`IntText.base`** — the digits without separators, and their base.
* **`IntText.Read`** — what is read from a text: width, base, digits and value, and a text that is read so again.
* **`IntText.Lexical.read_ok_iff`** — the literal that a text is read as.
* **`IntLiteral.Standard`** — what holds of such a literal; its own text is read as it again.
* **`integer_literals`** — all texts that the lexical grammar takes for integer literals.
-/

namespace Bluespec

open Lexeme

namespace IntText

variable {x : IntText} {lit : IntLiteral}

/-- The digits without separators. -/
def plainDigits (x : IntText) : List Char := x.digits.filter (· != '_')

/-- The base that the marker names; without a marker it is the decimal one. -/
def base (x : IntText) : Base := (x.marker.bind Base.ofMarker?).getD .decimal

/-- What is read from a text. -/
structure Read (x : IntText) (lit : IntLiteral) : Prop where
  unsigned : lit.sign = none
  width : (x.width = [] ∧ lit.width = none) ∨ (x.width ≠ [] ∧ ∃ w, Denotes 10 x.width w ∧ lit.width = some w)
  base : lit.base = x.base
  marked : lit.explicitBase = x.marker.isSome
  digits : lit.digits.toList = x.plainDigits
  value : ∃ v, Denotes x.base.radix x.plainDigits v ∧ lit.value? = if v < 2 ^ 128 then some v else none
  rendered : Token.ofText lit.render = [⟨.int, lit.render, ⟨0, Text.byteSize lit.render.toList⟩⟩]
  again : IntLiteral.ofText lit.render = .ok lit

end IntText

/-! ## Reading the parts -/

theorem Base.radix_le (b : Base) : b.radix ≤ 16 := by cases b <;> decide

theorem Base.exists_of_marker {c : Char} (h : c ∈ "dDhHoObB".toList) : ∃ b, Base.ofMarker? c = some b := by
  have hmem : c ∈ ['d', 'D', 'h', 'H', 'o', 'O', 'b', 'B'] := h
  simp only [List.mem_cons, List.not_mem_nil, or_false] at hmem
  obtain rfl | rfl | rfl | rfl | rfl | rfl | rfl | rfl := hmem <;> exact ⟨_, rfl⟩

theorem Base.digitsOf_ok_iff {b : Base} {cs ds : List Char} :
    b.digitsOf cs = .ok ds ↔ ds = cs.filter (· != '_') ∧ ds ≠ [] ∧ ∀ c ∈ ds, isDigitOf b.radix c = true := by
  unfold Base.digitsOf Text.without
  dsimp only
  generalize cs.filter (· != '_') = digits
  split
  · next hempty =>
    refine ⟨nofun, fun ⟨hds, hne, _⟩ => absurd ?_ hne⟩
    rw [hds, List.isEmpty_iff.mp hempty]
  · next hne =>
    rw [List.isEmpty_iff] at hne
    split
    · next c hfound =>
      refine ⟨nofun, fun ⟨hds, _, hall⟩ => ?_⟩
      have hbad := List.find?_some hfound
      rw [hall c (hds ▸ List.mem_of_find?_eq_some hfound)] at hbad
      cases hbad
    · next hnone =>
      have hall : ∀ c ∈ digits, isDigitOf b.radix c = true := fun c hc => by
        simpa using List.find?_eq_none.mp hnone c hc
      exact ⟨fun hds => Except.ok.inj hds ▸ ⟨rfl, hne, hall⟩, fun hds => hds.1 ▸ rfl⟩

theorem IntLiteral.widthOf_ok_iff {cs : List Char} {w : Option Nat} (hdigits : ∀ c ∈ cs, c.isDigit = true) :
    IntLiteral.widthOf cs = .ok w ↔
      (cs = [] ∧ w = none) ∨ (cs ≠ [] ∧ ∃ n < 2 ^ 32, Denotes 10 cs n ∧ w = some n) := by
  unfold IntLiteral.widthOf
  split
  · next hempty =>
    have hnil := List.isEmpty_iff.mp hempty
    refine ⟨fun hw => .inl ⟨hnil, (Except.ok.inj hw).symm⟩, fun hw => ?_⟩
    obtain ⟨-, rfl⟩ | ⟨hne, -⟩ := hw
    · rfl
    · exact absurd hnil hne
  · next hne =>
    rw [List.isEmpty_iff] at hne
    split
    · next n hn =>
      obtain ⟨-, hdenotes, hlt⟩ := (unsigned?_iff hdigits).mp hn
      refine ⟨fun hw => .inr ⟨hne, n, hlt, hdenotes, (Except.ok.inj hw).symm⟩, fun hw => ?_⟩
      obtain ⟨hnil, -⟩ | ⟨-, m, hm, hdenotes', rfl⟩ := hw
      · exact absurd hnil hne
      · exact congrArg Except.ok (hn.symm.trans ((unsigned?_iff hdigits).mpr ⟨hne, hdenotes', hm⟩))
    · next hnone =>
      refine ⟨nofun, fun hw => ?_⟩
      obtain ⟨hnil, -⟩ | ⟨-, m, hm, hdenotes, -⟩ := hw
      · exact absurd hnil hne
      · cases hnone.symm.trans ((unsigned?_iff hdigits).mpr ⟨hne, hdenotes, hm⟩)

/-- The literal of a text, part by part. -/
def IntText.read (x : IntText) : Except LiteralError IntLiteral := do
  let width ← IntLiteral.widthOf x.width
  let digits ← x.base.digitsOf x.digits
  return ⟨width, none, x.base, x.marker.isSome, String.ofList digits⟩

theorem Text.cutAt_append {p : Char → Bool} {before after : List Char} {d : Char} (h : ∀ c ∈ before, p c = false)
    (hd : p d = true) : Text.cutAt p (before ++ d :: after) = (before, some after) := by
  induction before with
  | nil => rw [List.nil_append, Text.cutAt, if_pos hd]
  | cons c before ih =>
    obtain ⟨hc, hbefore⟩ := List.forall_mem_cons.mp h
    rw [List.cons_append, Text.cutAt, hc, ih hbefore]
    rfl

/-- A text is cut at the tick, if there is one. -/
theorem IntText.Lexical.cutAt {x : IntText} (h : x.Lexical) :
    Text.cutAt (· == '\'') x.chars = match x.marker with
      | none => (x.digits, none)
      | some m => (x.width, some (m :: x.digits)) := by
  have hno : ∀ p : Char → Bool, p '\'' = false → ∀ c, p c = true → (c == '\'') = false := by
    intro p hp c hc
    rw [beq_eq_false_iff_ne]
    rintro rfl
    rw [hp] at hc
    cases hc
  cases h with
  | @plain c cs first others =>
    exact Text.cutAt_of_forall <| List.forall_mem_cons.mpr
      ⟨hno _ rfl c first, fun d hd => hno (fun d => d.isDigit || d == '_') rfl d (others d hd)⟩
  | @based width cs marker hwidth hmarker others =>
    exact Text.cutAt_append (fun d hd => hno _ rfl d (hwidth d hd)) rfl

/-- A text has its parts in one way. -/
theorem IntText.Lexical.eq_of_chars {x y : IntText} (hx : x.Lexical) (hy : y.Lexical) (h : x.chars = y.chars) :
    x = y := by
  have hcut := hx.cutAt.symm.trans ((congrArg (Text.cutAt (· == '\'')) h).trans hy.cutAt)
  cases hx <;> cases hy <;> simp_all

theorem IntText.Lexical.ofText {x : IntText} (h : x.Lexical) : IntLiteral.ofText (String.ofList x.chars) = x.read := by
  rw [IntLiteral.ofText, String.toList_ofList, h.cutAt]
  cases h with
  | plain => rfl
  | @based width cs marker _ hmarker _ =>
    obtain ⟨b, hb⟩ := Base.exists_of_marker hmarker
    simp only [hb, IntText.read, IntText.base, Option.bind_some, Option.getD_some, Option.isSome_some]

theorem IntText.Lexical.width_digits {x : IntText} (h : x.Lexical) : ∀ c ∈ x.width, c.isDigit = true := by
  cases h with
  | plain => exact nofun
  | based hwidth => exact hwidth

/-- The literal that a text is read as. -/
theorem IntText.Lexical.read_ok_iff {x : IntText} (h : x.Lexical) {lit : IntLiteral} :
    x.read = .ok lit ↔
      ((x.width = [] ∧ lit.width = none) ∨ (x.width ≠ [] ∧ ∃ w < 2 ^ 32, Denotes 10 x.width w ∧ lit.width = some w)) ∧
        (x.plainDigits ≠ [] ∧ ∀ c ∈ x.plainDigits, isDigitOf x.base.radix c = true) ∧
        lit = ⟨lit.width, none, x.base, x.marker.isSome, String.ofList x.plainDigits⟩ := by
  unfold IntText.read
  constructor
  · intro hread
    cases hw : IntLiteral.widthOf x.width with
    | error e =>
      rw [hw] at hread
      cases hread
    | ok w =>
      cases hd : x.base.digitsOf x.digits with
      | error e =>
        rw [hw, hd] at hread
        cases hread
      | ok ds =>
        rw [hw, hd] at hread
        cases hread
        obtain ⟨rfl, hdigits⟩ := Base.digitsOf_ok_iff.mp hd
        exact ⟨(IntLiteral.widthOf_ok_iff h.width_digits).mp hw, hdigits, rfl⟩
  · rintro ⟨hwidth, hdigits, hlit⟩
    rw [(IntLiteral.widthOf_ok_iff h.width_digits).mpr hwidth, Base.digitsOf_ok_iff.mpr ⟨rfl, hdigits⟩]
    exact congrArg Except.ok hlit.symm

/-! ## Rendering -/

/-- A literal as it is read: without a sign, with a width below the limit, and with at least one digit of its base. -/
structure IntLiteral.Standard (lit : IntLiteral) : Prop where
  unsigned : lit.sign = none
  width : ∀ w, lit.width = some w → w < 2 ^ 32 ∧ lit.explicitBase = true
  decimal : lit.explicitBase = false → lit.base = .decimal
  nonempty : lit.digits.toList ≠ []
  digits : ∀ c ∈ lit.digits.toList, isDigitOf lit.base.radix c = true

namespace IntLiteral

variable {lit : IntLiteral}

/-- The parts of the text of a literal. -/
def parts (lit : IntLiteral) : IntText :=
  ⟨(lit.width.map fun w => w.repr.toList).getD [], if lit.explicitBase then some lit.base.marker else none,
    lit.digits.toList⟩

theorem Standard.render_eq (h : lit.Standard) : lit.render = String.ofList lit.parts.chars := by
  obtain ⟨width, sign, base, explicit, digits⟩ := lit
  obtain rfl : sign = none := h.unsigned
  cases explicit with
  | false =>
    cases width with
    | none => simp [render, parts, IntText.chars]
    | some w => cases (h.width w rfl).2
  | true =>
    apply String.toList_injective
    cases width <;> simp [render, parts, IntText.chars]

theorem Base.marker_mem (b : Base) : b.marker ∈ "dDhHoObB".toList := by cases b <;> decide

theorem Standard.lexical (h : lit.Standard) : lit.parts.Lexical := by
  obtain ⟨width, sign, base, explicit, digits⟩ := lit
  cases explicit with
  | false =>
    obtain rfl : width = none := by
      cases width with
      | none => rfl
      | some w => cases (h.width w rfl).2
    obtain rfl : base = .decimal := h.decimal rfl
    obtain ⟨c, cs, hcs⟩ := List.exists_cons_of_ne_nil h.nonempty
    have hdigits := h.digits
    rw [hcs, List.forall_mem_cons] at hdigits
    have hchars : parts ⟨none, sign, .decimal, false, digits⟩ = ⟨[], none, c :: cs⟩ := congrArg (IntText.mk [] none) hcs
    rw [hchars]
    exact .plain (isDigitOf_ten.mp hdigits.1) fun d hd => by rw [isDigitOf_ten.mp (hdigits.2 d hd), Bool.true_or]
  | true =>
    refine .based ?_ (Base.marker_mem base) fun d hd => ?_
    · cases width with
      | none => exact nofun
      | some w => exact isDigit_repr w
    · rw [isAlphanum_of_isDigitOf base.radix_le (h.digits d hd), Bool.true_or]

theorem Standard.read (h : lit.Standard) : lit.parts.read = .ok lit := by
  have hplain : lit.parts.plainDigits = lit.digits.toList := by
    refine List.filter_eq_self.mpr fun c hc => ?_
    have hdigit := isAlphanum_of_isDigitOf lit.base.radix_le (h.digits c hc)
    rw [bne_iff_ne]
    rintro rfl
    cases hdigit
  have hbase : lit.parts.base = lit.base := by
    rw [IntText.base, parts]
    cases hexplicit : lit.explicitBase with
    | false => exact (h.decimal hexplicit).symm
    | true => exact congrArg (Option.getD · Base.decimal) (Base.ofMarker?_marker lit.base)
  have hmarked : lit.parts.marker.isSome = lit.explicitBase := by
    rw [parts]
    cases lit.explicitBase <;> rfl
  refine h.lexical.read_ok_iff.mpr ⟨?_, ?_, ?_⟩
  · cases hwidth : lit.width with
    | none => exact .inl ⟨by rw [parts, hwidth]; rfl, rfl⟩
    | some w =>
      have hchars : lit.parts.width = w.repr.toList := by rw [parts, hwidth]; rfl
      rw [hchars]
      exact .inr ⟨repr_ne_nil w, w, (h.width w hwidth).1, denotes_repr w, rfl⟩
  · rw [hplain, hbase]
    exact ⟨h.nonempty, h.digits⟩
  · rw [hplain, hbase, hmarked, String.ofList_toList, ← h.unsigned]

end IntLiteral

theorem IntText.Lexical.standard {x : IntText} {lit : IntLiteral} (h : x.Lexical) (hread : x.read = .ok lit) :
    lit.Standard := by
  obtain ⟨hwidth, ⟨hne, hdigits⟩, hlit⟩ := h.read_ok_iff.mp hread
  have hbase : lit.base = x.base := by rw [hlit]
  have hmarked : lit.explicitBase = x.marker.isSome := by rw [hlit]
  have hchars : lit.digits.toList = x.plainDigits := by rw [hlit, String.toList_ofList]
  refine ⟨by rw [hlit], fun w hw => ?_, fun hplain => ?_, hchars ▸ hne, ?_⟩
  · obtain ⟨-, hnone⟩ | ⟨hne, v, hv, -, hsome⟩ := hwidth
    · rw [hnone] at hw
      cases hw
    · rw [hsome] at hw
      cases hw
      refine ⟨hv, hmarked.trans ?_⟩
      cases h with
      | plain => exact absurd rfl hne
      | based => rfl
  · have hnone : x.marker = none :=
      Option.not_isSome_iff_eq_none.mp (by rw [← hmarked, hplain]; exact Bool.false_ne_true)
    rw [hbase, IntText.base, hnone]
    rfl
  · rw [hchars, hbase]
    exact hdigits

/-! ## All integer literals -/

/-- A text denotes a literal exactly if its parts denote numbers in range. -/
theorem IntText.Lexical.reads_iff {x : IntText} (h : x.Lexical) :
    (∃ lit, x.read = .ok lit) ↔
      (x.width = [] ∨ ∃ w < 2 ^ 32, Denotes 10 x.width w) ∧ x.plainDigits ≠ [] ∧
        ∀ c ∈ x.plainDigits, ∃ d, DigitOf x.base.radix c d := by
  have hdigits : (∀ c ∈ x.plainDigits, ∃ d, DigitOf x.base.radix c d) ↔
      ∀ c ∈ x.plainDigits, isDigitOf x.base.radix c = true :=
    forall₂_congr fun c _ => (isDigitOf_iff x.base.radix_le).symm
  rw [hdigits]
  constructor
  · rintro ⟨lit, hread⟩
    obtain ⟨hwidth, hdigits, -⟩ := h.read_ok_iff.mp hread
    exact ⟨hwidth.imp And.left fun ⟨_, w, hlt, hw, _⟩ => ⟨w, hlt, hw⟩, hdigits⟩
  · rintro ⟨hwidth, hdigits⟩
    by_cases hempty : x.width = []
    · exact ⟨⟨none, none, x.base, x.marker.isSome, String.ofList x.plainDigits⟩,
        h.read_ok_iff.mpr ⟨.inl ⟨hempty, rfl⟩, hdigits, rfl⟩⟩
    · obtain ⟨w, hlt, hw⟩ := hwidth.resolve_left hempty
      exact ⟨⟨some w, none, x.base, x.marker.isSome, String.ofList x.plainDigits⟩,
        h.read_ok_iff.mpr ⟨.inr ⟨hempty, w, hlt, hw, rfl⟩, hdigits, rfl⟩⟩

/-- What is read from a text is what it says. -/
theorem IntText.Lexical.read_spec {x : IntText} {lit : IntLiteral} (h : x.Lexical) (hread : x.read = .ok lit) :
    x.Read lit := by
  obtain ⟨hwidth, ⟨-, hdigits⟩, hlit⟩ := h.read_ok_iff.mp hread
  have hstandard := h.standard hread
  have hbase : lit.base = x.base := by rw [hlit]
  have hchars : lit.digits.toList = x.plainDigits := by rw [hlit, String.toList_ofList]
  refine ⟨hstandard.unsigned, ?_, hbase, by rw [hlit], hchars, ?_, ?_, ?_⟩
  · exact hwidth.imp_right fun ⟨hne, w, _, hw, hsome⟩ => ⟨hne, w, hw, hsome⟩
  · refine ⟨positionalValue x.base.radix x.plainDigits, (denotes_iff x.base.radix_le).mpr ⟨hdigits, rfl⟩, ?_⟩
    rw [IntLiteral.value?, hbase, hchars]
    rfl
  · rw [hstandard.render_eq, hstandard.lexical.token, String.toList_ofList]
  · rw [hstandard.render_eq, hstandard.lexical.ofText, hstandard.read]

/-- Separators between the digits make no difference. -/
theorem IntText.read_of_plainDigits {x y : IntText} (hwidth : y.width = x.width) (hmarker : y.marker = x.marker)
    (hdigits : y.plainDigits = x.plainDigits) : y.read = x.read := by
  have hbase : y.base = x.base := by rw [IntText.base, hmarker]; rfl
  have hread : y.base.digitsOf y.digits = x.base.digitsOf x.digits := by
    rw [IntText.plainDigits, IntText.plainDigits] at hdigits
    rw [hbase, Base.digitsOf, Base.digitsOf, Text.without, Text.without, hdigits]
  rw [IntText.read, IntText.read, hwidth, hread, hbase, hmarker]

/-- Every text that the lexical grammar takes for an integer literal is read as one exactly if its width, if there is
one, denotes a number of thirty-two bits, and there is at least one character besides separators, each of which is a
digit of the base.  The literal is what the text says, and separators between the digits make no difference. -/
theorem integer_literals (text : String) (h : IsIntText text) :
    ∃ x : IntText, x.Lexical ∧ x.chars = text.toList ∧
      ((∃ lit, IntLiteral.ofText text = .ok lit) ↔
        (x.width = [] ∨ ∃ w < 2 ^ 32, Denotes 10 x.width w) ∧ x.plainDigits ≠ [] ∧
          ∀ c ∈ x.plainDigits, ∃ d, DigitOf x.base.radix c d) ∧
      (∀ lit, IntLiteral.ofText text = .ok lit → x.Read lit) ∧
      ∀ y : IntText, y.Lexical → y.width = x.width → y.marker = x.marker → y.plainDigits = x.plainDigits →
        IntLiteral.ofText (String.ofList y.chars) = IntLiteral.ofText text := by
  obtain ⟨x, hx, hchars⟩ := isIntText_iff.mp h
  obtain rfl : text = String.ofList x.chars := by rw [hchars, String.ofList_toList]
  rw [hx.ofText]
  refine ⟨x, hx, hchars, hx.reads_iff, fun lit => hx.read_spec, fun y hy hwidth hmarker hdigits => ?_⟩
  rw [hy.ofText, IntText.read_of_plainDigits hwidth hmarker hdigits]

theorem integer_literals_hexadecimal :
    IsIntText "12'hF_f" ∧ ∃ x : IntText, x.Lexical ∧ x.chars = "12'hF_f".toList ∧
      x.Read ⟨some 12, none, .hexadecimal, true, "Ff"⟩ := by
  have htext : IsIntText "12'hF_f" :=
    isIntText_iff.mpr ⟨⟨['1', '2'], some 'h', ['F', '_', 'f']⟩,
      .based (List.all_eq_true.mp rfl) (List.contains_iff_mem.mp rfl) (List.all_eq_true.mp rfl), rfl⟩
  obtain ⟨x, hx, hchars, -, hread, -⟩ := integer_literals "12'hF_f" htext
  exact ⟨htext, x, hx, hchars, hread _ rfl⟩

end Bluespec
