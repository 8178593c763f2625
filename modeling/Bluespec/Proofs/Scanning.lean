import Bluespec.Token.Lexer

/-!
# Cutting a source into tokens

The items of a source stand next to each other: each begins where the one before it ends, none is empty, and
their texts joined together are the source.

* **`Item.scan_of_lexeme`**, **`Item.scan_of_character`** — the first item of a text, and the rest.
* **`Tiles`** — tokens that stand next to each other.
* **`Token.tiles_ofText`**, **`Token.texts_ofText`** — the tokens of a source tile it, and make up its text.
* **`Token.errors_ofText`** — its error tokens are its lexical errors.
-/

namespace Bluespec

/-! ## Longest lexemes -/

namespace Lexeme

theorem better_pos {best : Option (Lexeme × Nat)} {next lexeme : Lexeme} {length : Option Nat} {n : Nat}
    (hb : ∀ l m, best = some (l, m) → 0 < m) (h : better best next length = some (lexeme, n)) : 0 < n := by
  unfold better at h
  split at h
  · exact hb lexeme n h
  · exact hb lexeme n h
  · cases h
    omega
  · rename_i l m
    split at h
    · cases h
      omega
    · cases h
      exact hb lexeme n rfl

/-- No lexeme is empty. -/
theorem longest?_pos {cs : List Char} {lexeme : Lexeme} {n : Nat} (h : longest? cs = some (lexeme, n)) :
    0 < n := by
  have hfold : ∀ (rs : List (Pattern × Lexeme)) (best : Option (Lexeme × Nat)),
      (∀ l m, best = some (l, m) → 0 < m) → ∀ l m,
      rs.foldl (fun best rule => better best rule.2 (rule.1.longest? cs)) best = some (l, m) → 0 < m := by
    intro rs
    induction rs with
    | nil =>
      intro best hb l m hm
      exact hb l m hm
    | cons r rs ih =>
      intro best hb l m hm
      exact ih _ (fun _ _ hb' => better_pos hb hb') l m hm
  exact hfold rules none (fun _ _ hb => by cases hb) lexeme n h

end Lexeme

/-! ## Items -/

namespace Item

theorem text_ofLexeme (lexeme : Lexeme) (offset : Nat) (cs : List Char) :
    (ofLexeme lexeme offset cs).text = String.ofList cs := by
  unfold ofLexeme
  split <;> try rfl
  split <;> rfl

theorem textSpan_ofLexeme (lexeme : Lexeme) (offset : Nat) (cs : List Char) :
    (ofLexeme lexeme offset cs).textSpan = ⟨offset, offset + Text.byteSize cs⟩ := by
  unfold ofLexeme
  split <;> try rfl
  split <;> rfl

theorem toToken_token (t : Token) : (token t).toToken = t := rfl

theorem toToken_text (i : Item) : i.toToken.text = i.text := by
  cases i <;> rfl

theorem toToken_span (i : Item) : i.toToken.span = i.textSpan := by
  cases i <;> rfl

/-- More rounds than characters change nothing. -/
theorem scanUpTo_of_le {limit : Nat} (offset : Nat) {cs : List Char} (h : cs.length ≤ limit) :
    scanUpTo limit offset cs = scan offset cs := by
  have hsame : ∀ limit limit' offset (cs : List Char), cs.length ≤ limit → cs.length ≤ limit' →
      scanUpTo limit offset cs = scanUpTo limit' offset cs := by
    intro limit
    induction limit with
    | zero =>
      intro limit' offset cs hl _
      obtain rfl : cs = [] := List.length_eq_zero_iff.mp (by omega)
      cases limit' <;> rfl
    | succ limit ih =>
      intro limit' offset cs hl hl'
      cases cs with
      | nil => cases limit' <;> rfl
      | cons c cs =>
        rw [List.length_cons] at hl hl'
        obtain ⟨limit', rfl⟩ : ∃ m, limit' = m + 1 := ⟨limit' - 1, by omega⟩
        rw [scanUpTo, scanUpTo]
        cases hlong : Lexeme.longest? (c :: cs) with
        | none =>
          show _ :: _ = _ :: _
          rw [ih limit' _ cs (by omega) (by omega)]
        | some r =>
          obtain ⟨lexeme, n⟩ := r
          have hpos := Lexeme.longest?_pos hlong
          have hdrop : ((c :: cs).drop n).length ≤ cs.length := by
            rw [List.length_drop, List.length_cons]
            omega
          show _ :: _ = _ :: _
          rw [ih limit' _ _ (by omega) (by omega)]
  exact hsame limit cs.length offset cs h (Nat.le_refl _)

@[simp] theorem scan_nil (offset : Nat) : scan offset [] = [] := rfl

/-- A text that begins with a lexeme. -/
theorem scan_of_lexeme {c : Char} {cs : List Char} {lexeme : Lexeme} {n : Nat} (offset : Nat)
    (h : Lexeme.longest? (c :: cs) = some (lexeme, n)) :
    scan offset (c :: cs) = ofLexeme lexeme offset ((c :: cs).take n) ::
      scan (offset + Text.byteSize ((c :: cs).take n)) ((c :: cs).drop n) := by
  have hpos := Lexeme.longest?_pos h
  rw [scan, List.length_cons, scanUpTo, h]
  show _ :: _ = _ :: _
  rw [scanUpTo_of_le _ (by rw [List.length_drop, List.length_cons]; omega)]

/-- A text that begins with no lexeme. -/
theorem scan_of_character {c : Char} {cs : List Char} (offset : Nat) (h : Lexeme.longest? (c :: cs) = none) :
    scan offset (c :: cs) = ofCharacter c offset :: scan (offset + c.utf8Size) cs := by
  rw [scan, List.length_cons, scanUpTo, h]
  rfl

/-- To show something of a text at an offset, show it of the empty text, of a text that begins with a lexeme
and of one that begins with none, given what follows the first item. -/
theorem scan_induction {motive : Nat → List Char → Prop} (nil : ∀ offset, motive offset [])
    (lexeme : ∀ offset c cs lexeme n, Lexeme.longest? (c :: cs) = some (lexeme, n) → (c :: cs).take n ≠ [] →
      motive (offset + Text.byteSize ((c :: cs).take n)) ((c :: cs).drop n) → motive offset (c :: cs))
    (character : ∀ offset c cs, Lexeme.longest? (c :: cs) = none →
      motive (offset + c.utf8Size) cs → motive offset (c :: cs))
    (offset : Nat) (cs : List Char) : motive offset cs := by
  have hlimit : ∀ limit offset (cs : List Char), cs.length ≤ limit → motive offset cs := by
    intro limit
    induction limit with
    | zero =>
      intro offset cs hl
      obtain rfl : cs = [] := List.length_eq_zero_iff.mp (by omega)
      exact nil offset
    | succ limit ih =>
      intro offset cs hl
      cases cs with
      | nil => exact nil offset
      | cons c cs =>
        rw [List.length_cons] at hl
        cases hlong : Lexeme.longest? (c :: cs) with
        | none => exact character offset c cs hlong (ih _ cs (by omega))
        | some r =>
          have hpos := Lexeme.longest?_pos hlong
          have hdrop : ((c :: cs).drop r.2).length ≤ limit := by
            rw [List.length_drop, List.length_cons]
            omega
          have htaken : (c :: cs).take r.2 ≠ [] := by
            intro hnil
            have hlen := congrArg List.length hnil
            rw [List.length_take, List.length_cons, List.length_nil] at hlen
            omega
          exact lexeme offset c cs r.1 r.2 hlong htaken (ih _ _ hdrop)
  exact hlimit cs.length offset cs (Nat.le_refl _)

theorem text_ofCharacter (c : Char) (offset : Nat) : (ofCharacter c offset).text.toList = [c] :=
  String.toList_ofList

/-- The texts of the items of a text make it up. -/
theorem texts_scan (offset : Nat) (cs : List Char) :
    (scan offset cs).flatMap (fun i => i.text.toList) = cs := by
  induction offset, cs using scan_induction with
  | nil => rfl
  | lexeme offset c cs lexeme n hlong htaken ih =>
    rw [scan_of_lexeme offset hlong, List.flatMap_cons, ih, text_ofLexeme, String.toList_ofList,
      List.take_append_drop]
  | character offset c cs hlong ih =>
    rw [scan_of_character offset hlong, List.flatMap_cons, ih, text_ofCharacter]
    rfl

end Item

/-! ## Tokens side by side -/

/-- Tokens stand next to each other, the first of them at `start`, and the last ends at `stop`; none is
empty. -/
def Tiles : Nat → List Token → Nat → Prop
  | start, [], stop => start = stop
  | start, t :: ts, stop =>
    t.span.start = start ∧ t.span.stop = start + Text.byteSize t.text.toList ∧ start < t.span.stop ∧
      Tiles t.span.stop ts stop

theorem Tiles.stop_of_mem {start stop : Nat} {ts : List Token} {t : Token} (h : Tiles start ts stop) (ht : t ∈ ts) :
    t.span.stop = t.span.start + Text.byteSize t.text.toList := by
  induction ts generalizing start with
  | nil => cases ht
  | cons a ts ih =>
    obtain ⟨hstart, hstop, -, hrest⟩ := h
    cases ht with
    | head =>
      rw [hstart]
      exact hstop
    | tail _ ht => exact ih hrest ht

theorem Tiles.bounds_of_mem {start stop : Nat} {ts : List Token} {t : Token} (h : Tiles start ts stop)
    (ht : t ∈ ts) : start ≤ t.span.start ∧ t.span.start < t.span.stop := by
  induction ts generalizing start with
  | nil => cases ht
  | cons a ts ih =>
    obtain ⟨hstart, -, hlt, hrest⟩ := h
    cases ht with
    | head => exact ⟨Nat.le_of_eq hstart.symm, hstart ▸ hlt⟩
    | tail _ ht =>
      obtain ⟨hle, hpos⟩ := ih hrest ht
      exact ⟨by omega, hpos⟩

theorem Text.byteSize_pos {cs : List Char} (h : cs ≠ []) : 0 < Text.byteSize cs := by
  cases cs with
  | nil => exact absurd rfl h
  | cons c cs =>
    rw [Text.byteSize_cons]
    have hc := c.utf8Size_pos
    omega

namespace Item

theorem tiles_scan (offset : Nat) (cs : List Char) :
    Tiles offset ((scan offset cs).map toToken) (offset + Text.byteSize cs) := by
  induction offset, cs using scan_induction with
  | nil => rfl
  | lexeme offset c cs lexeme n hlong htaken ih =>
    have hsize := Text.byteSize_pos htaken
    rw [Nat.add_assoc, ← Text.byteSize_append, List.take_append_drop] at ih
    rw [scan_of_lexeme offset hlong, List.map_cons, Tiles, toToken_span, toToken_text, textSpan_ofLexeme,
      text_ofLexeme, String.toList_ofList]
    refine ⟨rfl, rfl, ?_, ih⟩
    show offset < offset + _
    omega
  | character offset c cs hlong ih =>
    have hc := c.utf8Size_pos
    rw [Nat.add_assoc] at ih
    rw [scan_of_character offset hlong, List.map_cons, Tiles, toToken_text, text_ofCharacter]
    refine ⟨rfl, rfl, ?_, ih⟩
    show offset < offset + c.utf8Size
    omega

/-! ## Errors -/

/-- No token of a lexeme is an error. -/
theorem kind_toToken_ofLexeme (lexeme : Lexeme) (offset : Nat) (cs : List Char) :
    (ofLexeme lexeme offset cs).toToken.kind = .error ↔ (ofLexeme lexeme offset cs).error? ≠ none := by
  have hword : Kind.ofWord (String.ofList cs) ≠ .error := by
    unfold Kind.ofWord
    split
    · exact nofun
    · split
      · split <;> exact nofun
      · exact nofun
  cases lexeme with
  | word => exact ⟨fun h => absurd h hword, fun h => absurd rfl h⟩
  | escapedString =>
    unfold ofLexeme
    cases badEscape? offset cs with
    | none => exact ⟨nofun, fun h => absurd rfl h⟩
    | some e => exact ⟨fun _ => nofun, fun _ => rfl⟩
  | unterminatedComment => exact ⟨fun _ => nofun, fun _ => rfl⟩
  | unterminatedString => exact ⟨fun _ => nofun, fun _ => rfl⟩
  | _ => exact ⟨nofun, fun h => absurd rfl h⟩

/-- The error tokens of a text are its lexical errors. -/
theorem kind_toToken {offset : Nat} {cs : List Char} {i : Item} (h : i ∈ scan offset cs) :
    i.toToken.kind = .error ↔ i.error? ≠ none := by
  induction offset, cs using scan_induction with
  | nil => cases h
  | lexeme offset c cs lexeme n hlong htaken ih =>
    rw [scan_of_lexeme offset hlong] at h
    cases h with
    | head => exact kind_toToken_ofLexeme lexeme offset _
    | tail _ h => exact ih h
  | character offset c cs hlong ih =>
    rw [scan_of_character offset hlong] at h
    cases h with
    | head => exact ⟨fun _ => nofun, fun _ => rfl⟩
    | tail _ h => exact ih h

end Item

/-! ## Whole sources -/

namespace Token

/-- The tokens of a source tile it. -/
theorem tiles_ofText (source : String) : Tiles 0 (ofText source) (Text.byteSize source.toList) := by
  have h := Item.tiles_scan 0 source.toList
  rw [Nat.zero_add] at h
  exact h

/-- The texts of the tokens of a source make up the source. -/
theorem texts_ofText (source : String) : (ofText source).flatMap (fun t => t.text.toList) = source.toList := by
  rw [ofText, List.flatMap_map]
  simp only [Item.toToken_text]
  exact Item.texts_scan 0 source.toList

/-- The error tokens of a source stand at the texts of its lexical errors. -/
theorem errors_ofText (source : String) :
    ((ofText source).filter fun t => t.kind == .error).map Token.span =
      (LexicalError.ofText source).map LexicalError.textSpan := by
  have hitems : ∀ is : List Item, (∀ i ∈ is, i.toToken.kind = .error ↔ i.error? ≠ none) →
      ((is.map Item.toToken).filter fun t => t.kind == .error).map Token.span =
        (is.filterMap Item.error?).map LexicalError.textSpan := by
    intro is
    induction is with
    | nil => exact fun _ => rfl
    | cons i is ih =>
      intro h
      have hi := h i List.mem_cons_self
      have hrest := ih fun j hj => h j (List.mem_cons_of_mem i hj)
      cases i with
      | token t =>
        have hkind : t.kind ≠ .error := fun he => hi.mp he rfl
        rw [List.map_cons, Item.toToken_token, List.filter_cons_of_neg (by simpa using hkind), hrest]
        rfl
      | error e text =>
        rw [List.map_cons, List.filter_cons_of_pos rfl, List.map_cons, hrest]
        rfl
  exact hitems _ fun i hi => Item.kind_toToken hi

end Token

end Bluespec
