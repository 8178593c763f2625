import Bluespec.Proofs.LongestLexemes
import Bluespec.Proofs.Moving

/-!
# Lexing again

What an item of a source is does not depend on where its text stands, on what stands before it, or on what stands
behind it.

* **`Item.scan_move`** — a text is cut into the same items wherever it stands.
* **`Item.scan_between`**, **`Item.scan_of_mem_scan`** — the text of neighbouring items is cut into those items alone.
* **`Lexer.Boundary`**, **`Item.cutAt_of_boundary`** — from the start of an item on, a text is cut as it is cut from
  its own start.
* **`Lexer.restartable`** — lexing a source again, from any place, or a text of one of its items.
-/

namespace Bluespec

/-! ## Items at other places -/

/-- A lexical error at another place. -/
def LexicalError.move (f : Nat → Nat) : LexicalError → LexicalError
  | invalidCharacter c s => invalidCharacter c (s.move f)
  | unterminatedString s => unterminatedString (s.move f)
  | invalidEscape c s literal => invalidEscape c (s.move f) (literal.move f)
  | unterminatedComment s => unterminatedComment (s.move f)

theorem LexicalError.textSpan_move (f : Nat → Nat) (e : LexicalError) : (e.move f).textSpan = e.textSpan.move f := by
  cases e <;> rfl

/-- An item at another place. -/
def Item.move (f : Nat → Nat) : Item → Item
  | token t => token (t.move f)
  | error e text => error (e.move f) text

theorem badEscape?_add (k offset : Nat) (cs : List Char) :
    badEscape? (offset + k) cs = (badEscape? offset cs).map fun e => (e.1, e.2 + k) := by
  induction offset, cs using badEscape?.induct with
  | case1 offset c cs hc ih =>
    rw [badEscape?, badEscape?, if_pos hc, if_pos hc, ← ih]
    congr 1
    omega
  | case2 offset c cs hc =>
    rw [badEscape?, badEscape?, if_neg hc, if_neg hc]
    rfl
  | case3 offset c cs hne ih =>
    rw [badEscape?, badEscape?, ← ih]
    · congr 1
      omega
    · exact hne
    · exact hne
  | case4 offset => rfl

namespace Item

variable (k : Nat)

theorem text_move (f : Nat → Nat) (i : Item) : (i.move f).text = i.text := by
  cases i <;> rfl

theorem textSpan_move (f : Nat → Nat) (i : Item) : (i.move f).textSpan = i.textSpan.move f := by
  cases i with
  | token t => rfl
  | error e text => exact e.textSpan_move f

theorem isTrivia_move (f : Nat → Nat) (i : Item) : (i.move f).isTrivia = i.isTrivia := by
  cases i <;> rfl

theorem error?_move (f : Nat → Nat) (i : Item) : (i.move f).error? = i.error?.map (LexicalError.move f) := by
  cases i <;> rfl

theorem toToken_move (f : Nat → Nat) (i : Item) : (i.move f).toToken = i.toToken.move f := by
  cases i with
  | token t => rfl
  | error e text => exact congrArg (Token.mk .error text) (e.textSpan_move f)

theorem ofLexeme_add (lexeme : Lexeme) (offset : Nat) (cs : List Char) :
    ofLexeme lexeme (offset + k) cs = (ofLexeme lexeme offset cs).move (· + k) := by
  have hspan : offset + k + Text.byteSize cs = offset + Text.byteSize cs + k := by omega
  cases lexeme with
  | escapedString =>
    rw [ofLexeme, ofLexeme, badEscape?_add, hspan]
    cases badEscape? offset cs with
    | none => rfl
    | some e =>
      have hstop : e.2 + k + 1 + e.1.utf8Size = e.2 + 1 + e.1.utf8Size + k := by omega
      show error (.invalidEscape _ ⟨_, e.2 + k + 1 + e.1.utf8Size⟩ _) _ = _
      rw [hstop]
      rfl
  | _ =>
    rw [ofLexeme, hspan]
    rfl

theorem ofCharacter_add (c : Char) (offset : Nat) :
    ofCharacter c (offset + k) = (ofCharacter c offset).move (· + k) := by
  have hspan : offset + k + c.utf8Size = offset + c.utf8Size + k := by omega
  rw [ofCharacter, hspan]
  rfl

/-- A text is cut into the same items wherever it stands. -/
theorem scan_move (offset : Nat) (cs : List Char) :
    scan (offset + k) cs = (scan offset cs).map (Item.move (· + k)) := by
  induction offset, cs using scan_induction with
  | nil => rfl
  | lexeme offset c cs lexeme n hlong htaken ih =>
    have hnext : offset + k + Text.byteSize ((c :: cs).take n) = offset + Text.byteSize ((c :: cs).take n) + k := by
      omega
    rw [scan_of_lexeme _ hlong, scan_of_lexeme _ hlong, List.map_cons, ofLexeme_add, hnext, ih]
  | character offset c cs hlong ih =>
    have hnext : offset + k + c.utf8Size = offset + c.utf8Size + k := by omega
    rw [scan_of_character _ hlong, scan_of_character _ hlong, List.map_cons, ofCharacter_add, hnext, ih]

end Item

/-! ## Parts of a text -/

/-- A text that begins with no lexeme does not begin with one when it is cut. -/
theorem Lexeme.longest?_eq_none_of_append {cs rest : List Char} (h : longest? (cs ++ rest) = none) :
    longest? cs = none := by
  cases hlong : longest? cs with
  | none => rfl
  | some best =>
    obtain ⟨lexeme, n⟩ := best
    obtain ⟨r, hr, -, hmatched⟩ := rule_of_longest? hlong
    obtain ⟨hn, hmatch, -⟩ := Pattern.longest?_eq_some_iff.mp hmatched
    obtain ⟨m, hm, hle⟩ := Pattern.exists_longest?_of_matches hmatch
    have hsplit : cs.take n ++ (cs.drop n ++ rest) = cs ++ rest := by rw [← List.append_assoc, List.take_append_drop]
    rw [hsplit] at hm
    rw [List.length_take, Nat.min_eq_left hn] at hle
    have hbest := best_longest? (cs ++ rest)
    rw [h] at hbest
    cases hbest with
    | none hnone => exact absurd (hnone r hr m hm) (Nat.ne_of_gt (Nat.lt_of_lt_of_le (longest?_pos hlong) hle))

namespace Item

/-- The text that items cover. -/
def textOf (is : List Item) : List Char := is.flatMap fun i => i.text.toList

theorem textOf_scan (offset : Nat) (cs : List Char) : textOf (scan offset cs) = cs := texts_scan offset cs

theorem textOf_append (is js : List Item) : textOf (is ++ js) = textOf is ++ textOf js := List.flatMap_append

/-- A part of the items of a text whose first item is cut off alike wherever the text behind it is cut. -/
theorem scan_between_cons {offset : Nat} {taken : List Char} {i : Item} {earlier is later others : List Item}
    (htext : i.text.toList = taken) (h : i :: others = earlier ++ is ++ later)
    (hcut : ∀ tail rest, textOf others = tail ++ rest →
      scan offset (taken ++ tail) = i :: scan (offset + Text.byteSize taken) tail)
    (hrest : ∀ earlier is, others = earlier ++ is ++ later →
      scan (offset + Text.byteSize taken + Text.byteSize (textOf earlier)) (textOf is) = is) :
    scan (offset + Text.byteSize (textOf earlier)) (textOf is) = is := by
  cases earlier with
  | cons j earlier =>
    obtain ⟨rfl, hothers⟩ := List.cons.inj h
    have hsize : Text.byteSize (textOf (i :: earlier)) = Text.byteSize taken + Text.byteSize (textOf earlier) := by
      rw [← htext, ← Text.byteSize_append]
      rfl
    rw [hsize, ← Nat.add_assoc]
    exact hrest earlier is hothers
  | nil =>
    cases is with
    | nil => rfl
    | cons j is =>
      obtain ⟨rfl, hothers⟩ := List.cons.inj h
      have hparts : textOf others = textOf is ++ textOf later := by rw [hothers]; exact textOf_append is later
      have hfirst : textOf (i :: is) = taken ++ textOf is := by rw [← htext]; rfl
      have hlater := hrest [] is hothers
      rw [hfirst]
      exact (hcut _ _ hparts).trans (congrArg (i :: ·) hlater)

/-- The text of items that stand side by side in a text is cut into those items alone. -/
theorem scan_between {offset : Nat} {cs : List Char} {earlier is later : List Item}
    (h : scan offset cs = earlier ++ is ++ later) :
    scan (offset + Text.byteSize (textOf earlier)) (textOf is) = is := by
  induction offset, cs using scan_induction generalizing earlier is with
  | nil offset =>
    obtain ⟨hfirst, -⟩ := List.append_eq_nil_iff.mp h.symm
    obtain ⟨rfl, rfl⟩ := List.append_eq_nil_iff.mp hfirst
    rfl
  | lexeme offset c cs lexeme n hlong htaken ih =>
    rw [scan_of_lexeme offset hlong] at h
    have htext : (ofLexeme lexeme offset ((c :: cs).take n)).text.toList = (c :: cs).take n := by
      rw [text_ofLexeme, String.toList_ofList]
    refine scan_between_cons htext h (fun tail rest htail => ?_) fun _ _ => ih
    rw [textOf_scan] at htail
    obtain ⟨r, -, -, hmatched⟩ := Lexeme.rule_of_longest? hlong
    have hlen : ((c :: cs).take n).length = n := by
      rw [List.length_take, Nat.min_eq_left (Pattern.longest?_matched hmatched).1]
    -- What is cut off stands behind the lexeme, so no rule can match on.
    have hlong' : Lexeme.longest? ((c :: cs).take n ++ tail) = some (lexeme, n) := by
      have hwhole : Lexeme.longest? ((c :: cs).take n ++ tail ++ rest) = some (lexeme, n) := by
        rw [List.append_assoc, ← htail, List.take_append_drop]
        exact hlong
      rw [← List.append_nil ((c :: cs).take n ++ tail)]
      refine Lexeme.longest?_cut hwhole ?_ fun _ _ d hd => by cases hd
      rw [List.length_append]
      omega
    obtain ⟨d, ds, hds⟩ := List.exists_cons_of_ne_nil htaken
    have hcons : (c :: cs).take n ++ tail = d :: (ds ++ tail) := by rw [hds]; rfl
    rw [hcons] at hlong' ⊢
    rw [scan_of_lexeme offset hlong', ← hcons, List.take_left' hlen, List.drop_left' hlen]
  | character offset c cs hlong ih =>
    rw [scan_of_character offset hlong] at h
    have hsize : Text.byteSize [c] = c.utf8Size := Nat.add_zero _
    refine scan_between_cons (text_ofCharacter c offset) h (fun tail rest htail => ?_) fun _ _ => ?_
    · rw [textOf_scan] at htail
      have hcut : Lexeme.longest? (c :: tail ++ rest) = none := by
        rw [List.cons_append, ← htail]
        exact hlong
      rw [hsize]
      exact scan_of_character offset (Lexeme.longest?_eq_none_of_append hcut)
    · rw [hsize]
      exact ih

/-! ## The text of an item -/

/-- The text of an item of a text is cut into that item alone. -/
theorem scan_of_mem_scan {offset : Nat} {cs : List Char} {i : Item} (h : i ∈ scan offset cs) :
    scan i.textSpan.start i.text.toList = [i] := by
  obtain ⟨earlier, later, hitems⟩ := List.append_of_mem h
  have hparts : scan offset cs = earlier ++ [i] ++ later := by rw [hitems, List.append_assoc]; rfl
  have halone := scan_between hparts
  rw [show textOf [i] = i.text.toList from List.append_nil _] at halone
  have htiles := tiles_scan (offset + Text.byteSize (textOf earlier)) i.text.toList
  rw [halone] at htiles
  have hstart : i.textSpan.start = offset + Text.byteSize (textOf earlier) := by
    rw [← toToken_span]
    exact htiles.1
  rw [hstart]
  exact halone

theorem span_of_mem_scan {cs : List Char} {i : Item} {offset : Nat} (h : i ∈ scan offset cs) :
    i.textSpan = ⟨i.textSpan.start, i.textSpan.start + Text.byteSize i.text.toList⟩ := by
  have hstop := (tiles_scan offset cs).stop_of_mem (List.mem_map_of_mem h)
  rw [toToken_span, toToken_text] at hstop
  rw [← hstop]

end Item

/-- The text of an item, read as a source, is one token of the same kind. -/
theorem Token.ofText_text {cs : List Char} {i : Item} (h : i ∈ Item.scan 0 cs) :
    ofText i.text = [⟨i.toToken.kind, i.text, ⟨0, Text.byteSize i.text.toList⟩⟩] := by
  have halone := Item.scan_of_mem_scan h
  have hmoved := Item.scan_move i.textSpan.start 0 i.text.toList
  rw [Nat.zero_add, halone] at hmoved
  obtain ⟨j, hj, hij⟩ := List.map_eq_singleton_iff.mp hmoved.symm
  have htext : i.text = j.text := by rw [← hij, Item.text_move]
  have hkind : i.toToken.kind = j.toToken.kind := by rw [← hij, Item.toToken_move]; rfl
  have hstart : j.textSpan.start = 0 := by
    have hsame : j.textSpan.start + i.textSpan.start = i.textSpan.start := by
      have hspan := congrArg (fun i => i.textSpan.start) hij
      rwa [Item.textSpan_move] at hspan
    omega
  have hspan := Item.span_of_mem_scan (hj ▸ List.mem_singleton_self j : j ∈ Item.scan 0 i.text.toList)
  rw [hstart, Nat.zero_add, ← htext] at hspan
  rw [ofText, hj, hkind, ← hspan, ← Item.toToken_span, htext, ← Item.toToken_text]
  rfl

/-! ## From the start of an item on -/

namespace Item

/-- An offset at which an item of a text starts, or at which the text ends. -/
def Boundary (offset : Nat) (cs : List Char) (o : Nat) : Prop :=
  o = offset + Text.byteSize cs ∨ ∃ i ∈ scan offset cs, i.textSpan.start = o

/-- A text is cut at `o` into two texts, and its items are those of the two texts. -/
def CutAt (offset : Nat) (cs : List Char) (o : Nat) : Prop :=
  ∃ before rest earlier, cs = before ++ rest ∧ o = offset + Text.byteSize before ∧
    scan offset cs = earlier ++ scan o rest ∧ ∀ i ∈ earlier, i.textSpan.start < o

theorem cutAt_cons {offset o : Nat} {taken rest : List Char} {i : Item} (htaken : taken ≠ [])
    (hscan : scan offset (taken ++ rest) = i :: scan (offset + Text.byteSize taken) rest)
    (hstart : i.textSpan.start = offset)
    (hrest : Boundary (offset + Text.byteSize taken) rest o → CutAt (offset + Text.byteSize taken) rest o)
    (h : Boundary offset (taken ++ rest) o) : CutAt offset (taken ++ rest) o := by
  have hsplit : o = offset ∨ Boundary (offset + Text.byteSize taken) rest o := by
    obtain rfl | ⟨j, hj, rfl⟩ := h
    · exact .inr (.inl (by rw [Text.byteSize_append, Nat.add_assoc]))
    · rw [hscan] at hj
      rcases List.mem_cons.mp hj with rfl | hj
      · exact .inl hstart
      · exact .inr (.inr ⟨j, hj, rfl⟩)
  obtain rfl | hlater := hsplit
  · exact ⟨[], taken ++ rest, [], rfl, rfl, rfl, fun i hi => absurd hi List.not_mem_nil⟩
  · obtain ⟨before, rest', earlier, rfl, rfl, hitems, hearlier⟩ := hrest hlater
    refine ⟨taken ++ before, rest', i :: earlier, (List.append_assoc _ _ _).symm, ?_, ?_, ?_⟩
    · rw [Text.byteSize_append, Nat.add_assoc]
    · rw [hscan, hitems]
      rfl
    · have hpos := Text.byteSize_pos htaken
      refine List.forall_mem_cons.mpr ⟨?_, hearlier⟩
      omega

/-- From the start of an item on, a text is cut into items as from its own start. -/
theorem cutAt_of_boundary {offset o : Nat} {cs : List Char} (h : Boundary offset cs o) : CutAt offset cs o := by
  induction offset, cs using scan_induction with
  | nil offset =>
    obtain rfl : o = offset := h.resolve_right (by rintro ⟨i, hi, -⟩; exact absurd hi List.not_mem_nil)
    exact ⟨[], [], [], rfl, rfl, rfl, fun i hi => absurd hi List.not_mem_nil⟩
  | lexeme offset c cs lexeme n hlong htaken ih =>
    have hscan := scan_of_lexeme offset hlong
    have hstart := congrArg Span.start (textSpan_ofLexeme lexeme offset ((c :: cs).take n))
    rw [← List.take_append_drop n (c :: cs)] at h ⊢
    exact cutAt_cons htaken (by rw [List.take_append_drop]; exact hscan) hstart ih h
  | character offset c cs hlong ih =>
    have hscan : scan offset ([c] ++ cs) = ofCharacter c offset :: scan (offset + Text.byteSize [c]) cs :=
      scan_of_character offset hlong
    exact cutAt_cons (List.cons_ne_nil c []) hscan rfl ih h

end Item

/-! ## Lexing again -/

/-- A reading of a text that stands at `offset` of a source, in the source. -/
def Reading.relocate (lines : LineIndex) (offset : Nat) : Reading → Reading
  | token t _ => token (t.move (· + offset)) (lines.position (t.span.start + offset))
  | error e => error (e.move (· + offset))

namespace Lexer

/-- An offset at which a reading of a source starts, or at which the source ends. -/
def Boundary (source : String) (o : Nat) : Prop :=
  o = Text.byteSize source.toList ∨ ∃ r ∈ (ofSource source).withTrivia.toList, r.textSpan.start = o

theorem boundary_iff (source : String) (o : Nat) : Boundary source o ↔ Item.Boundary 0 source.toList o := by
  rw [Boundary, Item.Boundary, toList_withTrivia_ofSource, Nat.zero_add]
  simp only [List.mem_map]
  constructor
  · rintro (h | ⟨r, ⟨i, hi, rfl⟩, h⟩)
    · exact .inl h
    · exact .inr ⟨i, hi, (congrArg Span.start (textSpan_locate _ i)).symm.trans h⟩
  · rintro (h | ⟨i, hi, h⟩)
    · exact .inl h
    · exact .inr ⟨_, ⟨i, hi, rfl⟩, (congrArg Span.start (textSpan_locate _ i)).trans h⟩

theorem resumeAt_append {source : String} {before rest : List Char} (h : source.toList = before ++ rest) :
    resumeAt source (Text.byteSize before) =
      ⟨LineIndex.ofText source.toList, Item.scan (Text.byteSize before) rest, false⟩ := by
  rw [resumeAt, h, Text.dropBytes?_append]
  rfl

theorem toList_append (lines : LineIndex) (is js : List Item) (trivia : Bool) :
    toList ⟨lines, is ++ js, trivia⟩ = toList ⟨lines, is, trivia⟩ ++ toList ⟨lines, js, trivia⟩ := by
  rw [toList, List.filter_append, List.map_append]
  rfl

theorem mem_toList {lines : LineIndex} {is : List Item} {trivia : Bool} {r : Reading}
    (h : r ∈ toList ⟨lines, is, trivia⟩) : ∃ i ∈ is, locate lines i = r := by
  obtain ⟨i, hi, hr⟩ := List.mem_map.mp h
  exact ⟨i, (List.mem_filter.mp hi).1, hr⟩

/-- What is read behind a cut are the readings of the whole text that start there or later. -/
theorem toList_of_cutAt {lines : LineIndex} {cs rest : List Char} {o : Nat} {earlier : List Item} {trivia : Bool}
    (hitems : Item.scan 0 cs = earlier ++ Item.scan o rest) (hearlier : ∀ i ∈ earlier, i.textSpan.start < o) :
    toList ⟨lines, Item.scan o rest, trivia⟩ =
      (toList ⟨lines, Item.scan 0 cs, trivia⟩).filter fun r => o ≤ r.textSpan.start := by
  have hbefore : (toList ⟨lines, earlier, trivia⟩).filter (fun r => o ≤ r.textSpan.start) = [] := by
    refine List.filter_eq_nil_iff.mpr fun r hr => ?_
    obtain ⟨i, hi, rfl⟩ := mem_toList hr
    rw [textSpan_locate, decide_eq_true_eq]
    exact Nat.not_le.mpr (hearlier i hi)
  have hbehind : (toList ⟨lines, Item.scan o rest, trivia⟩).filter (fun r => o ≤ r.textSpan.start) =
      toList ⟨lines, Item.scan o rest, trivia⟩ := by
    refine List.filter_eq_self.mpr fun r hr => ?_
    obtain ⟨i, hi, rfl⟩ := mem_toList hr
    have hstart := ((Item.tiles_scan o rest).bounds_of_mem (List.mem_map_of_mem hi)).1
    rw [Item.toToken_span] at hstart
    rw [textSpan_locate, decide_eq_true_eq]
    exact hstart
  rw [hitems, toList_append, List.filter_append, hbefore, hbehind, List.nil_append]

theorem locate_move (lines lines' : LineIndex) (k : Nat) (i : Item) :
    locate lines (i.move (· + k)) = (locate lines' i).relocate lines k := by
  cases i <;> rfl

/-- What is read of a text that stands at `k` is what is read of the text alone, in its place. -/
theorem toList_relocated (lines lines' : LineIndex) (k : Nat) (cs : List Char) (trivia : Bool) :
    toList ⟨lines, Item.scan k cs, trivia⟩ =
      (toList ⟨lines', Item.scan 0 cs, trivia⟩).map (Reading.relocate lines k) := by
  have hscan : Item.scan k cs = (Item.scan 0 cs).map (Item.move (· + k)) := by
    rw [← Item.scan_move, Nat.zero_add]
  have hkept : ((fun i => !i.isTrivia || trivia) ∘ Item.move (· + k)) = fun i => !i.isTrivia || trivia := by
    funext i
    rw [Function.comp_apply, Item.isTrivia_move]
  have hplace : locate lines ∘ Item.move (· + k) = Reading.relocate lines k ∘ locate lines' := by
    funext i
    exact locate_move lines lines' k i
  rw [toList, hscan, List.filter_map, hkept, List.map_map, hplace, ← List.map_map]
  rfl

/-- Lexing can be started again: with the text of an item, which is one token of the same kind; from the start of an
item, which yields what the whole source yields from there on; and from any place between two characters, which yields
what the text behind it yields alone, in its place in the source. -/
theorem restartable (source : String) :
    (∀ i ∈ Item.scan 0 source.toList,
      Token.ofText i.text = [⟨i.toToken.kind, i.text, ⟨0, Text.byteSize i.text.toList⟩⟩]) ∧
    (∀ o, Boundary source o →
      (resumeAt source o).withTrivia.toList =
          (ofSource source).withTrivia.toList.filter (fun r => o ≤ r.textSpan.start) ∧
        (resumeAt source o).toList = (ofSource source).toList.filter fun r => o ≤ r.textSpan.start) ∧
    ∀ before rest, source.toList = before ++ rest →
      (resumeAt source (Text.byteSize before)).withTrivia.toList =
          (ofSource (String.ofList rest)).withTrivia.toList.map
            (Reading.relocate (LineIndex.ofText source.toList) (Text.byteSize before)) ∧
        (resumeAt source (Text.byteSize before)).toList =
          (ofSource (String.ofList rest)).toList.map
            (Reading.relocate (LineIndex.ofText source.toList) (Text.byteSize before)) := by
  have hwhole (source : String) :
      ofSource source = ⟨LineIndex.ofText source.toList, Item.scan 0 source.toList, false⟩ :=
    resumeAt_append (List.nil_append _).symm
  refine ⟨fun i hi => Token.ofText_text hi, fun o ho => ?_, fun before rest h => ?_⟩
  · obtain ⟨before, rest, earlier, hsource, ho, hitems, hearlier⟩ :=
      Item.cutAt_of_boundary ((boundary_iff source o).mp ho)
    rw [Nat.zero_add] at ho
    have hresumed := resumeAt_append hsource
    rw [← ho] at hresumed
    rw [hresumed, hwhole]
    exact ⟨toList_of_cutAt hitems hearlier, toList_of_cutAt hitems hearlier⟩
  · rw [resumeAt_append h, hwhole, String.toList_ofList]
    exact ⟨toList_relocated _ _ _ _ _, toList_relocated _ _ _ _ _⟩

end Lexer

end Bluespec
