import Bluespec.Grammar.SourceUnit
import Bluespec.Proofs.Moving

/-!
# Lists of names at other places

* **`ListReader.Moves`** — a reader of names reads moved tokens as it reads the tokens themselves, misses included.
* **`ListReader.MissesAtTokens`** — its misses stand at tokens of the row or at the end of the row.
-/

namespace Bluespec

/-- A miss at another place. -/
def Miss.move (f : Nat → Nat) (m : Miss) : Miss := { m with span := m.span.move f }

/-- What was read, at another place. -/
def ListReading.move (f : Nat → Nat) {α : Type} (r : ListReading α) : ListReading α :=
  ⟨r.value, r.rest.map (Token.move f), r.passed.map (Miss.move f)⟩

namespace Miss

variable {f : Nat → Nat}

theorem furthest_move (a b : Miss) : (a.move f).furthest (b.move f) = (a.furthest b).move f := by
  unfold furthest
  show (if a.left < b.left then _ else if b.left < a.left then _ else _) = _
  split
  · rfl
  · split <;> rfl

theorem furthest?_move (a b : Option Miss) :
    furthest? (a.map (Miss.move f)) (b.map (Miss.move f)) = (furthest? a b).map (Miss.move f) := by
  cases a with
  | none => rfl
  | some a =>
    cases b with
    | none => rfl
    | some b => exact congrArg some (furthest_move a b)

end Miss

theorem ListReading.move_passed {f : Nat → Nat} {α : Type} (a : α) (rest : List Token) (m m' : Option Miss) :
    (ListReading.mk a rest (Miss.furthest? m m')).move f =
      ⟨a, rest.map (Token.move f), Miss.furthest? (m.map (Miss.move f)) (m'.map (Miss.move f))⟩ := by
  rw [Miss.furthest?_move]
  rfl

namespace ListReader

variable {α β : Type} {f : Nat → Nat}

/-- The outcome of a row whose first part passed over a miss, from the outcome of its other part. -/
def afterPart (passed : Option Miss) : Except Miss (ListReading β) → Except Miss (ListReading β)
  | .error m => .error ((Miss.furthest? (some m) passed).getD m)
  | .ok r => .ok { r with passed := Miss.furthest? passed r.passed }

theorem bind_of_error {p : ListReader α} {q : α → ListReader β} {stop : Nat} {ts : List Token} {m : Miss}
    (h : p stop ts = .error m) : ListReader.bind p q stop ts = .error m := by
  rw [ListReader.bind, h]

theorem bind_of_ok {p : ListReader α} {q : α → ListReader β} {stop : Nat} {ts : List Token} {r : ListReading α}
    (h : p stop ts = .ok r) : ListReader.bind p q stop ts = afterPart r.passed (q r.value stop r.rest) := by
  simp only [ListReader.bind, h]
  cases q r.value stop r.rest <;> rfl

/-- The outcome of a list whose first item has been read, from the outcome of its further items. -/
def afterItem (r : ListReading α) : Except Miss (ListReading (List α)) → Except Miss (ListReading (List α))
  | .error m => .error m
  | .ok r' => .ok ⟨r.value :: r'.value, r'.rest, Miss.furthest? r.passed r'.passed⟩

/-- An item behind a comma. -/
def nextItem (item : ListReader α) : ListReader α := (symbol (.punct .comma)).bind fun _ => item

theorem furtherItems_of_error {item : ListReader α} {limit stop : Nat} {ts : List Token} {m : Miss}
    (h : nextItem item stop ts = .error m) : furtherItems item (limit + 1) stop ts = .ok ⟨[], ts, some m⟩ := by
  rw [nextItem] at h
  simp only [furtherItems, h]

theorem furtherItems_of_ok {item : ListReader α} {limit stop : Nat} {ts : List Token} {r : ListReading α}
    (h : nextItem item stop ts = .ok r) :
    furtherItems item (limit + 1) stop ts = afterItem r (furtherItems item limit stop r.rest) := by
  rw [nextItem] at h
  simp only [furtherItems, h]
  cases furtherItems item limit stop r.rest <;> rfl

/-! ## What was read -/

section Read

variable {p p' : ListReader α} {q : α → ListReader β} {item : ListReader α} {k : Kind} {kinds : List Kind}
  {limit stop : Nat} {ts : List Token}

theorem bind_eq_ok {r : ListReading β} (h : (p >>= q) stop ts = .ok r) :
    ∃ r₁ r₂, p stop ts = .ok r₁ ∧ q r₁.value stop r₁.rest = .ok r₂ ∧ r.value = r₂.value ∧ r.rest = r₂.rest := by
  replace h : ListReader.bind p q stop ts = .ok r := h
  cases hfirst : p stop ts with
  | error m =>
    rw [bind_of_error hfirst] at h
    cases h
  | ok r₁ =>
    rw [bind_of_ok hfirst] at h
    cases hrest : q r₁.value stop r₁.rest with
    | error m =>
      rw [hrest] at h
      cases h
    | ok r₂ =>
      rw [hrest] at h
      cases h
      exact ⟨r₁, r₂, rfl, hrest, rfl, rfl⟩

theorem symbol_eq_ok {r : ListReading Unit} (h : symbol k stop ts = .ok r) : ∃ t, ts = t :: r.rest ∧ t.kind = k := by
  cases ts with
  | nil => cases h
  | cons t ts =>
    rw [symbol] at h
    split at h
    · next hkind =>
      cases h
      exact ⟨t, rfl, hkind⟩
    · cases h

theorem name_eq_ok {r : ListReading String} (h : name kinds stop ts = .ok r) :
    ∃ t, ts = t :: r.rest ∧ t.kind ∈ kinds ∧ r.value = t.text := by
  cases ts with
  | nil => cases h
  | cons t ts =>
    rw [name] at h
    split at h
    · next hkind =>
      cases h
      exact ⟨t, rfl, hkind, rfl⟩
    · cases h

theorem orElse_eq_ok {r : ListReading α} (h : orElse p p' stop ts = .ok r) : p stop ts = .ok r ∨ p' stop ts = .ok r := by
  unfold orElse at h
  cases hfirst : p stop ts with
  | ok r₁ =>
    rw [hfirst] at h
    cases h
    exact .inl rfl
  | error m =>
    cases hsecond : p' stop ts with
    | ok r₂ =>
      rw [hfirst, hsecond] at h
      cases h
      exact .inr rfl
    | error m' =>
      rw [hfirst, hsecond] at h
      cases h

theorem optional_eq_ok {r : ListReading (Option α)} (h : optional p stop ts = .ok r) :
    (∃ r₁, p stop ts = .ok r₁ ∧ r.value = some r₁.value ∧ r.rest = r₁.rest) ∨ r.value = none ∧ r.rest = ts := by
  unfold optional at h
  cases hfirst : p stop ts with
  | ok r₁ =>
    rw [hfirst] at h
    cases h
    exact .inl ⟨r₁, rfl, rfl, rfl⟩
  | error m =>
    rw [hfirst] at h
    cases h
    exact .inr ⟨rfl, rfl⟩

theorem furtherItems_eq_ok {r : ListReading (List α)} (h : furtherItems item (limit + 1) stop ts = .ok r) :
    r.value = [] ∧ r.rest = ts ∨ ∃ r₁ r₂, nextItem item stop ts = .ok r₁ ∧
      furtherItems item limit stop r₁.rest = .ok r₂ ∧ r.value = r₁.value :: r₂.value ∧ r.rest = r₂.rest := by
  cases hnext : nextItem item stop ts with
  | error m =>
    rw [furtherItems_of_error hnext] at h
    cases h
    exact .inl ⟨rfl, rfl⟩
  | ok r₁ =>
    rw [furtherItems_of_ok hnext] at h
    cases hrest : furtherItems item limit stop r₁.rest with
    | error m =>
      rw [hrest] at h
      cases h
    | ok r₂ =>
      rw [hrest] at h
      cases h
      exact .inr ⟨r₁, r₂, rfl, hrest, rfl, rfl⟩

/-- A row that is read as a whole is read to its end. -/
theorem run_eq_ok {a : α} (h : p.run stop ts = .ok a) : ∃ r, p stop ts = .ok r ∧ r.value = a ∧ r.rest = [] := by
  rw [run] at h
  cases hread : p stop ts with
  | error m =>
    rw [bind_of_error hread] at h
    cases h
  | ok r =>
    rw [bind_of_ok hread] at h
    cases hrest : r.rest with
    | nil =>
      rw [hrest] at h
      cases h
      exact ⟨r, rfl, rfl, hrest⟩
    | cons t rest =>
      rw [hrest] at h
      cases h

end Read

/-! ## Moved tokens -/

/-- The outcome of a reader at another place. -/
def moveOutcome (f : Nat → Nat) : Except Miss (ListReading α) → Except Miss (ListReading α)
  | .ok r => .ok (r.move f)
  | .error m => .error (m.move f)

/-- A reader reads moved tokens as it reads the tokens themselves. -/
def Moves (f : Nat → Nat) (p : ListReader α) : Prop :=
  ∀ stop ts, p (f stop) (ts.map (Token.move f)) = moveOutcome f (p stop ts)

namespace Moves

theorem value (a : α) : Moves f (pure a) := fun _ _ => rfl

theorem bind {p : ListReader α} {q : α → ListReader β} (hp : Moves f p) (hq : ∀ a, Moves f (q a)) :
    Moves f (p >>= q) := by
  intro stop ts
  show ListReader.bind p q _ _ = moveOutcome f (ListReader.bind p q stop ts)
  have hfirst := hp stop ts
  cases hrun : p stop ts with
  | error m =>
    rw [hrun] at hfirst
    rw [bind_of_error hrun, bind_of_error hfirst]
    rfl
  | ok r =>
    rw [hrun] at hfirst
    rw [bind_of_ok hrun, bind_of_ok hfirst]
    show afterPart (r.passed.map (Miss.move f)) (q r.value (f stop) (r.rest.map (Token.move f))) = _
    rw [hq r.value stop r.rest]
    cases q r.value stop r.rest with
    | error m =>
      show Except.error ((Miss.furthest? (some (m.move f)) (r.passed.map (Miss.move f))).getD (m.move f)) =
        Except.error (((Miss.furthest? (some m) r.passed).getD m).move f)
      cases r.passed with
      | none => rfl
      | some passed => exact congrArg Except.error (Miss.furthest_move m passed)
    | ok r' =>
      exact congrArg Except.ok (ListReading.move_passed r'.value r'.rest r.passed r'.passed).symm

theorem symbol (k : Kind) : Moves f (symbol k) := by
  intro stop ts
  cases ts with
  | nil => rfl
  | cons t ts =>
    show (if t.kind = k then _ else _) = moveOutcome f (if t.kind = k then _ else _)
    split
    · rfl
    · show Except.error (Miss.mk (List.length (_ :: ts.map _)) _ _ _) = _
      rw [List.length_cons, List.length_map]
      rfl

theorem name (kinds : List Kind) : Moves f (name kinds) := by
  intro stop ts
  cases ts with
  | nil => rfl
  | cons t ts =>
    show (if t.kind ∈ kinds then _ else _) = moveOutcome f (if t.kind ∈ kinds then _ else _)
    split
    · rfl
    · show Except.error (Miss.mk (List.length (_ :: ts.map _)) _ _ _) = _
      rw [List.length_cons, List.length_map]
      rfl

theorem orElse {p q : ListReader α} (hp : Moves f p) (hq : Moves f q) : Moves f (orElse p q) := by
  intro stop ts
  unfold ListReader.orElse
  rw [hp stop ts, hq stop ts]
  cases p stop ts with
  | ok r => rfl
  | error m =>
    cases q stop ts with
    | ok r => rfl
    | error m' => exact congrArg Except.error (Miss.furthest_move m m')

theorem optional {p : ListReader α} (hp : Moves f p) : Moves f (optional p) := by
  intro stop ts
  unfold ListReader.optional
  rw [hp stop ts]
  cases p stop ts <;> rfl

theorem furtherItems {item : ListReader α} (hitem : Moves f item) (limit : Nat) :
    Moves f (furtherItems item limit) := by
  induction limit with
  | zero => exact .value []
  | succ limit ih =>
    intro stop ts
    have hitems : Moves f (nextItem item) := (symbol _).bind fun _ => hitem
    have hnext := hitems stop ts
    cases hrun : nextItem item stop ts with
    | error m =>
      rw [hrun] at hnext
      rw [furtherItems_of_error hrun, furtherItems_of_error hnext]
      rfl
    | ok r =>
      rw [hrun] at hnext
      rw [furtherItems_of_ok hrun, furtherItems_of_ok hnext]
      show afterItem (r.move f) (ListReader.furtherItems item limit (f stop) (r.rest.map (Token.move f))) = _
      rw [ih stop r.rest]
      cases ListReader.furtherItems item limit stop r.rest with
      | error m => rfl
      | ok r' =>
        exact congrArg Except.ok (ListReading.move_passed (r.value :: r'.value) r'.rest r.passed r'.passed).symm

theorem listOf {item : ListReader α} (hitem : Moves f item) : Moves f (listOf item) := by
  intro stop ts
  have hall : Moves f (item.bind fun first => (ListReader.furtherItems item ts.length).bind fun others =>
      ListReader.pure (first :: others)) := hitem.bind fun _ => (hitem.furtherItems _).bind fun _ => .value _
  unfold ListReader.listOf
  rw [List.length_map]
  exact hall stop ts

theorem atEnd : Moves f atEnd := by
  intro stop ts
  cases ts with
  | nil => rfl
  | cons t ts =>
    show Except.error (Miss.mk (List.length (_ :: ts.map _)) _ _ _) = _
    rw [List.length_cons, List.length_map]
    rfl

theorem packageRef : Moves f packageRef :=
  (name _).bind fun _ => (symbol _).bind fun _ => (symbol _).bind fun _ => .value _

theorem exportedName : Moves f exportedName :=
  (name _).bind fun _ =>
    (Moves.optional ((symbol _).bind fun _ => (symbol _).bind fun _ => symbol _)).bind fun _ => .value _

theorem exportItems : Moves f exportItems :=
  (symbol _).bind fun _ =>
    (listOf ((packageRef.bind fun _ => .value _).orElse exportedName)).bind fun _ => (symbol _).bind fun _ => .value _

theorem importedPackages : Moves f importedPackages :=
  (symbol _).bind fun _ => packageRef.listOf.bind fun _ => (symbol _).bind fun _ => .value _

theorem run {p : ListReader α} (hp : Moves f p) (stop : Nat) (ts : List Token) :
    p.run (f stop) (ts.map (Token.move f)) = (p.run stop ts).mapError (Miss.move f) := by
  have hall : Moves f (p.bind fun a => ListReader.atEnd.bind fun _ => ListReader.pure a) :=
    hp.bind fun _ => atEnd.bind fun _ => .value _
  unfold ListReader.run
  rw [hall stop ts]
  cases p.bind (fun a => ListReader.atEnd.bind fun _ => ListReader.pure a) stop ts <;> rfl

end Moves

/-! ### Where misses stand -/

/-- A miss stands at a token of the row or at its end. -/
def AtToken (stop : Nat) (ts : List Token) (m : Miss) : Prop :=
  m.span = Span.point stop ∨ ∃ t ∈ ts, m.span = t.span

/-- All misses of an outcome stand at tokens of the row or at its end, and the tokens left are some of the row. -/
def OutcomeAtTokens (stop : Nat) (ts : List Token) : Except Miss (ListReading α) → Prop
  | .error m => AtToken stop ts m
  | .ok r => (∀ t ∈ r.rest, t ∈ ts) ∧ ∀ m, r.passed = some m → AtToken stop ts m

/-- All misses of a reader stand at tokens of the row or at its end. -/
def MissesAtTokens (p : ListReader α) : Prop := ∀ stop ts, OutcomeAtTokens stop ts (p stop ts)

theorem AtToken.mono {stop : Nat} {ts ts' : List Token} {m : Miss} (h : AtToken stop ts m) (hts : ∀ t ∈ ts, t ∈ ts') :
    AtToken stop ts' m := by
  obtain h | ⟨t, ht, h⟩ := h
  · exact .inl h
  · exact .inr ⟨t, hts t ht, h⟩

theorem AtToken.furthest {stop : Nat} {ts : List Token} {m m' : Miss} (h : AtToken stop ts m)
    (h' : AtToken stop ts m') : AtToken stop ts (m.furthest m') := by
  unfold Miss.furthest
  split
  · exact h
  · split
    · exact h'
    · exact h

theorem AtToken.furthest? {stop : Nat} {ts : List Token} {m m' : Option Miss} (h : ∀ a, m = some a → AtToken stop ts a)
    (h' : ∀ a, m' = some a → AtToken stop ts a) : ∀ a, Miss.furthest? m m' = some a → AtToken stop ts a := by
  cases m with
  | none => exact h'
  | some a =>
    cases m' with
    | none => exact h
    | some a' =>
      rintro b ⟨⟩
      exact (h a rfl).furthest (h' a' rfl)

namespace MissesAtTokens

theorem value (a : α) : MissesAtTokens (pure a : ListReader α) := fun _ _ => ⟨fun _ ht => ht, nofun⟩

theorem bind {p : ListReader α} {q : α → ListReader β} (hp : MissesAtTokens p) (hq : ∀ a, MissesAtTokens (q a)) :
    MissesAtTokens (p >>= q) := by
  intro stop ts
  show OutcomeAtTokens stop ts (ListReader.bind p q stop ts)
  have hfirst := hp stop ts
  cases hrun : p stop ts with
  | error m =>
    rw [hrun] at hfirst
    rw [bind_of_error hrun]
    exact hfirst
  | ok r =>
    rw [hrun] at hfirst
    rw [bind_of_ok hrun]
    have hsecond := hq r.value stop r.rest
    revert hsecond
    cases q r.value stop r.rest with
    | error m =>
      intro hm
      have hm := AtToken.mono hm hfirst.1
      have hall : ∀ a, Miss.furthest? (some m) r.passed = some a → AtToken stop ts a :=
        AtToken.furthest? (fun a ha => by cases ha; exact hm) hfirst.2
      show AtToken stop ts ((Miss.furthest? (some m) r.passed).getD m)
      cases hfar : Miss.furthest? (some m) r.passed with
      | none => exact hm
      | some a => exact hall a hfar
    | ok r' =>
      intro hr'
      exact ⟨fun t ht => hfirst.1 t (hr'.1 t ht),
        AtToken.furthest? hfirst.2 fun a ha => (hr'.2 a ha).mono hfirst.1⟩

theorem symbol (k : Kind) : MissesAtTokens (symbol k) := by
  intro stop ts
  cases ts with
  | nil => exact .inl rfl
  | cons t ts =>
    show OutcomeAtTokens stop (t :: ts) (if t.kind = k then _ else _)
    split
    · exact ⟨fun _ ht => List.mem_cons_of_mem _ ht, nofun⟩
    · exact .inr ⟨t, List.mem_cons_self, rfl⟩

theorem name (kinds : List Kind) : MissesAtTokens (name kinds) := by
  intro stop ts
  cases ts with
  | nil => exact .inl rfl
  | cons t ts =>
    show OutcomeAtTokens stop (t :: ts) (if t.kind ∈ kinds then _ else _)
    split
    · exact ⟨fun _ ht => List.mem_cons_of_mem _ ht, nofun⟩
    · exact .inr ⟨t, List.mem_cons_self, rfl⟩

theorem orElse {p q : ListReader α} (hp : MissesAtTokens p) (hq : MissesAtTokens q) : MissesAtTokens (orElse p q) := by
  intro stop ts
  have hfirst := hp stop ts
  have hsecond := hq stop ts
  unfold ListReader.orElse
  revert hfirst
  cases p stop ts with
  | ok r => exact id
  | error m =>
    intro hm
    revert hsecond
    cases q stop ts with
    | ok r => exact id
    | error m' => exact fun hm' => AtToken.furthest hm hm'

theorem optional {p : ListReader α} (hp : MissesAtTokens p) : MissesAtTokens (optional p) := by
  intro stop ts
  have hfirst := hp stop ts
  unfold ListReader.optional
  revert hfirst
  cases p stop ts with
  | ok r => exact id
  | error m => exact fun hm => ⟨fun _ ht => ht, fun a ha => by cases ha; exact hm⟩

theorem furtherItems {item : ListReader α} (hitem : MissesAtTokens item) (limit : Nat) :
    MissesAtTokens (furtherItems item limit) := by
  induction limit with
  | zero => exact .value []
  | succ limit ih =>
    intro stop ts
    have hnext : MissesAtTokens (nextItem item) := (symbol _).bind fun _ => hitem
    have hfirst := hnext stop ts
    cases hrun : nextItem item stop ts with
    | error m =>
      rw [hrun] at hfirst
      rw [furtherItems_of_error hrun]
      exact ⟨fun _ ht => ht, fun a ha => by cases ha; exact hfirst⟩
    | ok r =>
      rw [hrun] at hfirst
      rw [furtherItems_of_ok hrun]
      have hsecond := ih stop r.rest
      revert hsecond
      cases ListReader.furtherItems item limit stop r.rest with
      | error m => exact fun hm => AtToken.mono hm hfirst.1
      | ok r' =>
        exact fun hr' => ⟨fun t ht => hfirst.1 t (hr'.1 t ht),
          AtToken.furthest? hfirst.2 fun a ha => (hr'.2 a ha).mono hfirst.1⟩

theorem listOf {item : ListReader α} (hitem : MissesAtTokens item) : MissesAtTokens (listOf item) := by
  intro stop ts
  have hall : MissesAtTokens (item.bind fun first => (ListReader.furtherItems item ts.length).bind fun others =>
      ListReader.pure (first :: others)) := hitem.bind fun _ => (hitem.furtherItems _).bind fun _ => .value _
  exact hall stop ts

theorem atEnd : MissesAtTokens atEnd := by
  intro stop ts
  cases ts with
  | nil => exact ⟨fun _ ht => ht, nofun⟩
  | cons t ts => exact .inr ⟨t, List.mem_cons_self, rfl⟩

theorem packageRef : MissesAtTokens packageRef :=
  (name _).bind fun _ => (symbol _).bind fun _ => (symbol _).bind fun _ => .value _

theorem exportedName : MissesAtTokens exportedName :=
  (name _).bind fun _ =>
    (MissesAtTokens.optional ((symbol _).bind fun _ => (symbol _).bind fun _ => symbol _)).bind fun _ => .value _

theorem exportItems : MissesAtTokens exportItems :=
  (symbol _).bind fun _ =>
    (listOf ((packageRef.bind fun _ => .value _).orElse exportedName)).bind fun _ => (symbol _).bind fun _ => .value _

theorem importedPackages : MissesAtTokens importedPackages :=
  (symbol _).bind fun _ => packageRef.listOf.bind fun _ => (symbol _).bind fun _ => .value _

theorem run {p : ListReader α} (hp : MissesAtTokens p) {stop : Nat} {ts : List Token} {m : Miss}
    (h : p.run stop ts = .error m) : AtToken stop ts m := by
  have hall : MissesAtTokens (p.bind fun a => ListReader.atEnd.bind fun _ => ListReader.pure a) :=
    hp.bind fun _ => atEnd.bind fun _ => .value _
  have hrun := hall stop ts
  unfold ListReader.run at h
  revert h hrun
  cases p.bind (fun a => ListReader.atEnd.bind fun _ => ListReader.pure a) stop ts with
  | ok r => exact fun h => nomatch h
  | error m' =>
    intro h hrun
    cases h
    exact hrun

end MissesAtTokens

end ListReader

end Bluespec
