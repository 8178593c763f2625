import Bluespec.Diagnostic

/-!
# Lists read with choices

A **`ListReader`** reads a short row of tokens and may choose between alternatives.  A failure, or a part
that was tried and left out, is a **`Miss`**; of all misses on the way to a failure the furthest one is
told, and misses at the same place are told together.

* **`ListReader.symbol`**, **`ListReader.name`** — one token.
* **`ListReader.orElse`**, **`ListReader.optional`**, **`ListReader.listOf`** — choices.
* **`ListReader.run`** — reads a whole row.
-/

namespace Bluespec

/-- Something that was looked for in vain. -/
structure Miss where
  /-- The number of tokens left at that place. -/
  left : Nat
  /-- Where it was looked for. -/
  span : Span
  /-- What was looked for. -/
  expected : List (Option Kind)
  /-- What was there instead; nothing stands for the end of the row. -/
  found : Option Kind

namespace Miss

/-- The further of two misses, or both together if they are at the same place. -/
def furthest (a b : Miss) : Miss :=
  if a.left < b.left then a
  else if b.left < a.left then b
  else { a with expected := a.expected ++ b.expected }

/-- The furthest of misses that may not exist. -/
def furthest? : Option Miss → Option Miss → Option Miss
  | some a, some b => some (a.furthest b)
  | some a, none => some a
  | none, b => b

/-- A miss as a diagnostic. -/
def diagnostic (m : Miss) : Diagnostic := ⟨.grammar (.expectedAny m.expected m.found), m.span⟩

end Miss

/-- What was read: the value, the tokens left, and the furthest miss passed over. -/
structure ListReading (α : Type) where
  /-- The value. -/
  value : α
  /-- The tokens left. -/
  rest : List Token
  /-- The furthest miss passed over. -/
  passed : Option Miss

/-- Reads tokens of a row that ends at a byte offset. -/
def ListReader (α : Type) : Type := Nat → List Token → Except Miss (ListReading α)

namespace ListReader

/-- Yields a value without reading. -/
protected def pure (a : α) : ListReader α := fun _ ts => .ok ⟨a, ts, none⟩

/-- Reads one part and then another, which depends on it. -/
protected def bind (p : ListReader α) (f : α → ListReader β) : ListReader β := fun stop ts =>
  match p stop ts with
  | .error m => .error m
  | .ok r =>
    match f r.value stop r.rest with
    | .error m => .error ((Miss.furthest? (some m) r.passed).getD m)
    | .ok r' => .ok { r' with passed := Miss.furthest? r.passed r'.passed }

instance : Monad ListReader where
  pure := ListReader.pure
  bind := ListReader.bind

/-! ## Single tokens -/

/-- A token of the given kind. -/
def symbol (k : Kind) : ListReader Unit := fun stop ts =>
  match ts with
  | [] => .error ⟨0, Span.point stop, [some k], none⟩
  | t :: rest =>
    if t.kind = k then .ok ⟨(), rest, none⟩
    else .error ⟨ts.length, t.span, [some k], some t.kind⟩

/-- The text of a token of one of the given kinds.  At the end of the row nothing in particular is
expected. -/
def name (kinds : List Kind) : ListReader String := fun stop ts =>
  match ts with
  | [] => .error ⟨0, Span.point stop, [], none⟩
  | t :: rest =>
    if t.kind ∈ kinds then .ok ⟨t.text, rest, none⟩
    else .error ⟨ts.length, t.span, kinds.map some, some t.kind⟩

/-! ## Choices -/

/-- The first reader, or the second if the first fails.  Once the second succeeds, the miss of the first
is forgotten. -/
def orElse (p q : ListReader α) : ListReader α := fun stop ts =>
  match p stop ts with
  | .ok r => .ok r
  | .error m =>
    match q stop ts with
    | .ok r => .ok r
    | .error m' => .error (m.furthest m')

/-- A part that may be left out. -/
def optional (p : ListReader α) : ListReader (Option α) := fun stop ts =>
  match p stop ts with
  | .ok r => .ok ⟨some r.value, r.rest, r.passed⟩
  | .error m => .ok ⟨none, ts, some m⟩

/-- At most `limit` further items, each behind a comma.  A comma with no item after it is left. -/
def furtherItems (item : ListReader α) : Nat → ListReader (List α)
  | 0 => ListReader.pure []
  | limit + 1 => fun stop ts =>
    match (symbol (.punct .comma)).bind (fun _ => item) stop ts with
    | .error m => .ok ⟨[], ts, some m⟩
    | .ok r =>
      match furtherItems item limit stop r.rest with
      | .error m => .error m
      | .ok r' => .ok ⟨r.value :: r'.value, r'.rest, Miss.furthest? r.passed r'.passed⟩

/-- One or more items with commas between them. -/
def listOf (item : ListReader α) : ListReader (List α) := fun stop ts =>
  item.bind (fun first => (furtherItems item ts.length).bind fun others =>
    ListReader.pure (first :: others)) stop ts

/-- Nothing more. -/
def atEnd : ListReader Unit := fun _ ts =>
  match ts with
  | [] => .ok ⟨(), [], none⟩
  | t :: _ => .error ⟨ts.length, t.span, [none], some t.kind⟩

/-- Reads a whole row of tokens that ends at `stop`. -/
def run (p : ListReader α) (stop : Nat) (ts : List Token) : Except Miss α :=
  match p.bind (fun a => atEnd.bind fun _ => ListReader.pure a) stop ts with
  | .ok r => .ok r.value
  | .error m => .error m

end ListReader

end Bluespec
