import Bluespec.Proofs.Tracking

/-!
# Skipping, resuming and types over moved tokens

How far a parser skips, and where it resumes, depends on the kinds of tokens only; types and formals are read the
same way at any place.

* **`CountsKinds`** — an extent that depends on the kinds of tokens only.
* **`Tracks.skipExtent`**, **`Tracks.items`**, **`Tracks.header`** — parsers that skip and resume.
* **`Tracks.type`**, **`Tracks.formals`** — what stands in the headers of definitions.
-/

namespace Bluespec.Parser

/-! ## Stepping over text -/

/-- An extent depends on the kinds of tokens only. -/
def CountsKinds {α : Type} (extent : List Token → α) : Prop :=
  ∀ (move : Nat → Nat) (ts : List Token), extent (ts.map (Token.move move)) = extent ts

namespace CountsKinds

theorem balanced (depth : Nat) : CountsKinds (Extent.balanced depth) := by
  intro move ts
  induction ts generalizing depth with
  | nil => rfl
  | cons t ts ih => simp only [List.map_cons, Extent.balanced, Token.move, ih]

theorem through (opening closing : Keyword) (depth : Nat) : CountsKinds (Extent.through opening closing depth) := by
  intro move ts
  induction ts generalizing depth with
  | nil => rfl
  | cons t ts ih => simp only [List.map_cons, Extent.through, Token.move, ih]

theorem statement (depth : Nat) : CountsKinds (Extent.statement depth) := by
  intro move ts
  induction ts generalizing depth with
  | nil => rfl
  | cons t ts ih => simp only [List.map_cons, Extent.statement, Token.move, ih]

theorem recovery (first : Bool) (depth : Nat) : CountsKinds (Extent.recovery first depth) := by
  intro move ts
  induction ts generalizing first depth with
  | nil => rfl
  | cons t ts ih => simp only [List.map_cons, Extent.recovery, Token.move, ih]

theorem listTail : CountsKinds Extent.listTail := by
  intro move ts
  induction ts with
  | nil => rfl
  | cons t ts ih => simp only [List.map_cons, Extent.listTail, Token.move, ih]

theorem nameList : CountsKinds Extent.nameList := by
  intro move ts
  cases ts with
  | nil => rfl
  | cons t ts => simp only [List.map_cons, Extent.nameList, Token.move, listTail move ts]

theorem definition (closing : Keyword) (nested : Nat) : CountsKinds (Extent.definition closing nested) := by
  intro move ts
  induction ts generalizing nested with
  | nil => rfl
  | cons t ts ih => simp only [List.map_cons, Extent.definition, Token.move, ih]

theorem endsAtBoundary : CountsKinds endsAtBoundary := by
  intro move ts
  match ts with
  | [] | [_] | [_, _] | _ :: _ :: _ :: _ => rfl

theorem afterActionWords (depth : Nat) (move : Nat → Nat) (ts : List Token) :
    Bluespec.afterActionWords depth (ts.map (Token.move move)) =
      (Bluespec.afterActionWords depth ts).map (Token.move move) := by
  induction ts generalizing depth with
  | nil => rfl
  | cons t ts ih =>
    simp only [List.map_cons, Bluespec.afterActionWords, Token.move, ih]
    split
    · rfl
    · split
      · split <;> rfl
      · rfl

theorem afterLabel (move : Nat → Nat) (ts : List Token) :
    Bluespec.afterLabel (ts.map (Token.move move)) = (Bluespec.afterLabel ts).map (Token.move move) := by
  cases ts with
  | nil => rfl
  | cons t ts =>
    simp only [List.map_cons, Bluespec.afterLabel, Token.move]
    split
    · exact List.map_drop.symm
    · rfl

theorem afterSemicolon (move : Nat → Nat) (ts : List Token) :
    Bluespec.afterSemicolon (ts.map (Token.move move)) = (Bluespec.afterSemicolon ts).map (Token.move move) := by
  cases ts with
  | nil => rfl
  | cons t ts =>
    simp only [List.map_cons, Bluespec.afterSemicolon, Token.move]
    split <;> rfl

theorem afterActionBlock : CountsKinds afterActionBlock := by
  intro move ts
  unfold Bluespec.afterActionBlock
  rw [afterActionWords, afterLabel, afterSemicolon, List.head?_map, Option.map_map]
  rfl

end CountsKinds

namespace Tracks

variable {ℓ : Relocation} {n m : Nat} {α β : Type} {V : Nat → α → α → Prop} {W : Nat → β → β → Prop}
  {p p' : Parser α}

theorem skipExtent {extent : List Token → Nat} (h : CountsKinds extent) :
    Tracks ℓ n Same (Parser.skipExtent extent) (Parser.skipExtent extent) := by
  intro c s c' s' hs _
  have hextent : extent s'.rest = extent s.rest := by rw [hs.rest, h]
  obtain ⟨halike, hle⟩ := hs.advance (extent s.rest)
  refine ⟨.some rfl, ?_, hle⟩
  show Alike ℓ c (s.advance (extent s.rest)) c' (s'.advance (extent s'.rest))
  rw [hextent]
  exact halike

theorem skipParenthesized : Tracks ℓ n Same Parser.skipParenthesized Parser.skipParenthesized := by
  refine (isNext _).next fun b => ?_
  cases b with
  | true => exact skipExtent (.balanced 0)
  | false => exact .ret fun _ _ => rfl

/-- Labels at another place. -/
theorem label : Tracks ℓ n (By (Option.map (Label.move ℓ.move))) Parser.label Parser.label := by
  have htoken : ∀ {k : Nat} {t t' : Token}, TokenAt ℓ k t t' → Tracks ℓ k (By (Option.map (Label.move ℓ.move)))
      (pure (some (Label.mk t.text t.span))) (pure (some (Label.mk t'.text t'.span))) :=
    fun ht => .ret fun _ _ => by rw [ht.1]; rfl
  refine (accept _).next fun b => ?_
  cases b with
  | false => exact .ret fun _ _ => rfl
  | true =>
    refine (eat _).seq fun m t t' _ ht => ?_
    cases ht with
    | some ht => exact htoken ht
    | none =>
      refine (eat _).seq fun m t t' _ ht => ?_
      cases ht with
      | some ht => exact htoken ht
      | none => exact (reportExpected _).next fun _ => .ret fun _ _ => rfl

theorem skipAttributes : Tracks ℓ n Same Parser.skipAttributes Parser.skipAttributes := by
  refine repeatUntil (V := Same) (lasting_by id) (fun m _ _ _ _ => ?_) rfl
  refine (isNext _).next fun b => ?_
  cases b with
  | false => exact .ret fun _ _ => .done rfl
  | true =>
    refine offset.seq fun k start start' hk hstart => ?_
    obtain ⟨rfl, hseen⟩ := hstart
    exact (skipExtent (.balanced 0)).next fun _ => reportFrom hseen _ fun _ _ => .ret fun _ _ => .again rfl

/-! ### Resuming -/

theorem resumeState {c c' : Setting} {s s' s₁ s₁' : State} (hs : Alike ℓ c s c' s') (hs₁ : Alike ℓ c s₁ c' s₁') :
    Alike ℓ c (Parser.resumeState s s₁) c' (Parser.resumeState s' s₁') ∧
      s₁.cursor c ≤ (Parser.resumeState s s₁).cursor c := by
  have hextent : Extent.recovery true 0 s₁'.rest = Extent.recovery true 0 s₁.rest := by
    rw [hs₁.rest, CountsKinds.recovery]
  have hboundary : endsAtBoundary s₁'.consumed = endsAtBoundary s₁.consumed := by
    rw [hs₁.consumed, CountsKinds.endsAtBoundary]
  unfold Parser.resumeState
  rw [hs.length, hs₁.length, hextent, hboundary]
  split
  · exact hs₁.advance _
  · exact ⟨hs₁, Nat.le_refl _⟩

theorem resuming (h : Tracks ℓ n V p p') :
    Tracks ℓ n (fun k => Option.Rel (V k)) (Parser.resuming p) (Parser.resuming p') := by
  intro c s c' s' hs hn
  obtain ⟨hr, hs₁, hle⟩ := h c s c' s' hs hn
  unfold Parser.resuming
  revert hr hs₁ hle
  cases p c s with
  | mk r s₁ =>
    cases p' c' s' with
    | mk r' s₁' =>
      intro hr hs₁ hle
      cases hr with
      | some hv => exact ⟨.some (.some hv), hs₁, hle⟩
      | none =>
        obtain ⟨halike, hle'⟩ := resumeState hs hs₁
        exact ⟨.some .none, halike, Nat.le_trans hle hle'⟩

/-- Relations of optional values that are moves. -/
theorem rel_by {move : α → α} {k : Nat} {r r' : Option α} : Option.Rel (By move k) r r' ↔ r' = r.map move := by
  constructor
  · intro h
    cases h with
    | none => rfl
    | some h => exact congrArg some h
  · rintro rfl
    cases r with
    | none => exact .none
    | some a => exact .some rfl

section Items

variable {move : α → α}

theorem attempted (h : Tracks ℓ n (By move) p p') :
    Tracks ℓ n (By (Option.map move)) (Parser.attempt p) (Parser.attempt p') :=
  h.attempt.weaken (Nat.le_refl n) fun _ _ _ _ hr => rel_by.mp hr

theorem tried (h : Tracks ℓ n (By move) p p') (hp : Moving p) (hp' : Moving p') :
    Tracks ℓ n (By (Option.map move)) (Parser.tentatively p) (Parser.tentatively p') :=
  (h.tentatively hp hp').weaken (Nat.le_refl n) fun _ _ _ _ hr => rel_by.mp hr

theorem resumed (h : Tracks ℓ n (By move) p p') :
    Tracks ℓ n (By (Option.map move)) (Parser.resuming p) (Parser.resuming p') :=
  h.resuming.weaken (Nat.le_refl n) fun _ _ _ _ hr => rel_by.mp hr

theorem itemsUpTo (h : Tracks ℓ n (By move) p p') (limit : Nat) :
    Tracks ℓ n (By (List.map move)) (Parser.itemsUpTo p limit) (Parser.itemsUpTo p' limit) := by
  induction limit with
  | zero => exact .failed
  | succ limit ih =>
    refine atCloser.next fun closed => halted.next fun stopped => ?_
    simp only [id_eq]
    split
    · exact .ret fun _ _ => rfl
    · refine h.resumed.next fun first => ih.next fun others => .ret fun _ _ => ?_
      show _ = List.map move (first.toList ++ others)
      rw [List.map_append]
      cases first <;> rfl

theorem items (h : Tracks ℓ n (By move) p p') :
    Tracks ℓ n (By (List.map move)) (Parser.items p) (Parser.items p') := by
  intro c s c' s' hs hn
  unfold Parser.items
  rw [hs.length]
  exact h.itemsUpTo _ c s c' s' hs hn

theorem abandon (closing : Keyword) : Tracks ℓ n Same (Parser.abandon closing) (Parser.abandon closing) := by
  refine (skipExtent (.definition closing 0)).next fun _ => (accept _).next fun closed => ?_
  cases closed with
  | true => exact label.next fun _ => .ret fun _ _ => rfl
  | false => exact .ret fun _ _ => rfl

theorem header (closing : Keyword) (h : Tracks ℓ n (By move) p p') :
    Tracks ℓ n (By move) (Parser.header closing p) (Parser.header closing p') := by
  refine h.attempted.next fun r => ?_
  cases r with
  | some a => exact .ret fun _ _ => rfl
  | none => exact (abandon closing).next fun _ => .failed

end Items

/-! ## Types -/

theorem bitBound : Tracks ℓ n Same Parser.bitBound Parser.bitBound := by
  refine (expect _).seq fun m t t' _ ht => ?_
  obtain ⟨rfl, hseen⟩ := ht
  simp only [Token.move]
  split
  · exact .ret fun _ _ => rfl
  · exact (report hseen _).next fun _ => .failed

theorem typeForm {inner : Parser TypeExpr} (h : Tracks ℓ n (By (TypeExpr.move ℓ.move)) inner inner) :
    Tracks ℓ n (By (TypeForm.move ℓ.move)) (Parser.typeForm inner) (Parser.typeForm inner) := by
  refine peek.next fun k => ?_
  simp only [id_eq]
  split
  · refine (expectText _).next fun name => (accept _).next fun marked => ?_
    cases marked with
    | true =>
      refine (expectPunct _).next fun _ => h.separated.next fun params => (expectPunct _).next fun _ => .ret ?_
      intro _ _
      show _ = TypeForm.named name (TypeExpr.moveAll ℓ.move params)
      rw [TypeExpr.moveAll_eq]
      rfl
    | false => exact .ret fun _ _ => rfl
  · exact (expectText _).next fun name => .ret fun _ _ => rfl
  · refine (expect _).seq fun m t t' _ ht => ?_
    obtain ⟨rfl, hseen⟩ := ht
    simp only [Token.move]
    split
    · exact .ret fun _ _ => rfl
    · exact (report hseen _).next fun _ => .failed
  · refine skip.next fun _ => (accept _).next fun marked => ?_
    cases marked with
    | true =>
      exact bitBound.next fun hi => (expectPunct _).next fun _ => bitBound.next fun lo => (expectPunct _).next fun _ =>
        .ret fun _ _ => rfl
    | false => exact .ret fun _ _ => rfl
  · exact failExpected _

theorem typeUpTo (limit : Nat) :
    Tracks ℓ n (By (TypeExpr.move ℓ.move)) (Parser.typeUpTo limit) (Parser.typeUpTo limit) := by
  induction limit generalizing n with
  | zero => exact .failed
  | succ limit ih =>
    refine offset.seq fun m start start' _ hstart => ?_
    obtain ⟨rfl, -⟩ := hstart
    exact (typeForm ih).next fun form => spanned fun _ _ _ => rfl

theorem type : Tracks ℓ n (By (TypeExpr.move ℓ.move)) Parser.type Parser.type := by
  intro c s c' s' hs hn
  unfold Parser.type
  rw [hs.length]
  exact typeUpTo _ c s c' s' hs hn

theorem atTypedDecl : Tracks ℓ n Same Parser.atTypedDecl Parser.atTypedDecl := by
  have hnamed : Tracks ℓ n Same (do let _ ← Parser.type; Parser.isNext .ident)
      (do let _ ← Parser.type; Parser.isNext .ident) := type.next fun _ => isNext _
  have hmoving : Moving (do let _ ← Parser.type; Parser.isNext .ident) := Moving.type.bind fun _ => .isNext _
  refine peek.next fun k => ?_
  simp only [id_eq]
  split
  · exact (hnamed.lookahead hmoving hmoving).next fun _ => .ret fun _ _ => rfl
  · exact (hnamed.lookahead hmoving hmoving).next fun _ => .ret fun _ _ => rfl
  · exact .ret fun _ _ => rfl

/-! ## Formals -/

theorem typeFormalKind : Tracks ℓ n Same Parser.typeFormalKind Parser.typeFormalKind := by
  refine (accept _).next fun numeric => ?_
  cases numeric with
  | true => exact .ret fun _ _ => rfl
  | false => exact (accept _).next fun _ => .ret fun _ _ => rfl

theorem typeFormal : Tracks ℓ n (By (TypeFormal.move ℓ.move)) Parser.typeFormal Parser.typeFormal := by
  refine offset.seq fun m start start' _ hstart => ?_
  obtain ⟨rfl, -⟩ := hstart
  exact typeFormalKind.next fun kind => (expectKeyword _).next fun _ => (expectText _).next fun name =>
    spanned fun _ _ _ => rfl

theorem typeFormals : Tracks ℓ n (By (List.map (TypeFormal.move ℓ.move))) Parser.typeFormals Parser.typeFormals :=
  (expectPunct _).next fun _ => (expectPunct _).next fun _ => typeFormal.separated.next fun _ =>
    (expectPunct _).next fun _ => .ret fun _ _ => rfl

theorem atBareName : Tracks ℓ n Same Parser.atBareName Parser.atBareName :=
  asked fun _ s _ s' hs => by rw [State.isNext, State.isNext, hs.peek, hs.nth]

theorem formal (untyped : Bool) : Tracks ℓ n (By (Formal.move ℓ.move)) (Parser.formal untyped) (Parser.formal untyped) := by
  refine skipAttributes.next fun _ => offset.seq fun m start start' _ hstart => ?_
  obtain ⟨rfl, -⟩ := hstart
  refine atBareName.next fun bare => ?_
  have hrest : ∀ type : Option TypeExpr, Tracks ℓ m (By (Formal.move ℓ.move))
      (do let name ← Parser.expectText .ident; return ⟨type, name, ← Parser.spanFrom start⟩)
      (do let name ← Parser.expectText .ident
          return ⟨type.map (TypeExpr.move ℓ.move), name, ← Parser.spanFrom (ℓ.move start)⟩) :=
    fun type => (expectText _).next fun name => spanned fun _ _ _ => rfl
  simp only [id_eq]
  split
  · exact hrest none
  · exact type.present.next hrest

theorem formals (untyped : Bool) :
    Tracks ℓ n (By (List.map (Formal.move ℓ.move))) (Parser.formals untyped) (Parser.formals untyped) :=
  (expectPunct _).next fun _ => (formal untyped).enclosed

theorem formalsIfAny (untyped : Bool) :
    Tracks ℓ n (By (List.map (Formal.move ℓ.move))) (Parser.formalsIfAny untyped) (Parser.formalsIfAny untyped) := by
  refine (isNext _).next fun b => ?_
  cases b with
  | true => exact formals untyped
  | false => exact .ret fun _ _ => rfl

theorem moduleParam : Tracks ℓ n (By (ModuleParam.move ℓ.move)) Parser.moduleParam Parser.moduleParam := by
  refine skipAttributes.next fun _ => offset.seq fun m start start' _ hstart => ?_
  obtain ⟨rfl, -⟩ := hstart
  exact (accept _).next fun marked => type.next fun type => (expectText _).next fun name => spanned fun _ _ _ => rfl

theorem moduleParams :
    Tracks ℓ n (By (List.map (ModuleParam.move ℓ.move))) Parser.moduleParams Parser.moduleParams := by
  refine (accept _).next fun b => ?_
  cases b with
  | true =>
    exact (expectPunct _).next fun _ => moduleParam.separated.next fun params => (expectPunct _).next fun _ =>
      .ret fun _ _ => rfl
  | false => exact .ret fun _ _ => rfl

theorem moduleArg : Tracks ℓ n (By (ModuleArg.move ℓ.move)) Parser.moduleArg Parser.moduleArg := by
  refine skipAttributes.next fun _ => offset.seq fun m start start' _ hstart => ?_
  obtain ⟨rfl, -⟩ := hstart
  refine type.next fun type => (eat _).seq fun k name name' _ hname => spanned fun _ _ _ => ?_
  cases hname with
  | none => rfl
  | some hname => rw [hname.1]; rfl

theorem moduleArgs : Tracks ℓ n (By (List.map (ModuleArg.move ℓ.move))) Parser.moduleArgs Parser.moduleArgs := by
  refine (accept _).next fun b => ?_
  cases b with
  | true => exact moduleArg.enclosed
  | false => exact .ret fun _ _ => rfl

theorem skipProvisos : Tracks ℓ n Same Parser.skipProvisos Parser.skipProvisos := by
  refine (isNext _).next fun b => ?_
  cases b with
  | true =>
    refine offset.seq fun m start start' _ hstart => ?_
    obtain ⟨rfl, hseen⟩ := hstart
    refine skip.next fun _ => skipParenthesized.next fun _ => ?_
    refine (spanFrom start).seq fun k span span' hk hspan => ?_
    obtain ⟨rfl, hspan⟩ := hspan
    exact reportUnsupported (hspan ▸ hseen.mono hk) _
  | false => exact .ret fun _ _ => rfl

end Tracks

end Bluespec.Parser
