import Bluespec.Grammar.TypeExpr
import Bluespec.Proofs.ConfinedRules

/-!
# Types and formals are confined

Types and the lists in the headers of definitions are read from their own tokens, and so is the answer to the question
whether a declaration with a type comes next (**`atTypedDecl_of_type`**, **`atTypedDecl_of_other`**).
-/

namespace Bluespec.Parser

variable {α β : Type} {tokens : List Token} {n m : Nat} {H : Option Kind → Prop} {u : Bool}

/-! ## Unfolding a type -/

open Grade Mark in
theorem same_typeUpTo (n limit limit' : Nat) (h : n ≤ limit) (h' : n ≤ limit') (before : List NodeSpan) :
    Holds sameRuns (free n true) (fun _ => reading) before (typeUpTo limit) (typeUpTo limit') fun _ => before := by
  induction n generalizing limit limit' before with
  | zero => exact ⟨fun _ s hs => absurd hs.1 (Nat.not_lt_zero _), closed_sameRuns.vacuous rfl⟩
  | succ n ih =>
    obtain ⟨limit, rfl⟩ : ∃ m, limit = m + 1 := ⟨limit - 1, by omega⟩
    obtain ⟨limit', rfl⟩ : ∃ m, limit' = m + 1 := ⟨limit' - 1, by omega⟩
    refine closed_sameRuns.look looks_offset fun start => ?_
    refine closed_sameRuns.read (closed_sameRuns.typeForm fun before => closed_sameRuns.free_of_past
      (ih limit limit' (by omega) (by omega) before)) fun form => ?_
    exact closed_sameRuns.look (looks_spanFrom start) fun span => closed_sameRuns.ret (.refl _)

open Grade Mark in
/-- The parameters of a type are types. -/
theorem type_eq : type = (do
    let start ← offset
    let form ← typeForm type
    return ⟨form, ← spanFrom start⟩) := by
  funext c s
  have hlevel : ∀ n, Holds sameRuns (free n true) (fun _ => reading) [] (typeUpTo n) type fun _ => [] := by
    intro n
    refine ⟨(same_typeUpTo n n n (Nat.le_refl n) (Nat.le_refl n) []).steady, fun c s hs => ?_⟩
    exact (same_typeUpTo (s.rest.length + 1) n (s.rest.length + 1) hs.1 (Nat.le_refl _) []).trait c s
      ⟨Nat.lt_succ_self _, trivial⟩
  have hform : Outset sameRuns s.rest.length [] (typeForm (typeUpTo s.rest.length)) (typeForm type) fun _ => [] :=
    closed_sameRuns.typeForm fun before => closed_sameRuns.free_of_past
      ⟨(hlevel s.rest.length).steady, (hlevel s.rest.length).trait⟩
  show (offset >>= fun start => typeForm (typeUpTo s.rest.length) >>= _) c s = _
  have hoffset : offset c s = (some (s.peekSpan c).start, s) := rfl
  rw [bind_of_some hoffset, bind_of_some hoffset, bind_apply, bind_apply,
    hform.trait c s ⟨Nat.lt_succ_self _, trivial⟩]

/-! ## Types -/

/-- A name, and whether the mark of parameters is behind it. -/
def markedName (k : Kind) : Parser (String × Bool) := do
  let name ← expectText k
  let marked ← accept (.punct .hash)
  return (name, marked)

theorem markedName_of_hash {k : Kind} {t t' : Token} (hk : t.kind = k) (hk' : t'.kind = .punct .hash) (c : Setting)
    (cs ts : List Token) (ds : List Diagnostic) (ns : List NodeSpan) :
    markedName k c ⟨cs, t :: t' :: ts, ds, ns⟩ = (some (t.text, true), ⟨t' :: t :: cs, ts, ds, ns⟩) := by
  rw [markedName, bind_of_some (expectText_of_kind hk), bind_of_some (accept_of_kind hk')]
  rfl

theorem markedName_of_lacks {k : Kind} {t : Token} {ts : List Token} (hk : t.kind = k)
    (hts : Lacks (.punct .hash) ts) (c : Setting) (cs : List Token) (ds : List Diagnostic) (ns : List NodeSpan) :
    markedName k c ⟨cs, t :: ts, ds, ns⟩ = (some (t.text, false), ⟨t :: cs, ts, ds, ns⟩) := by
  rw [markedName, bind_of_some (expectText_of_kind hk), bind_of_some (accept_of_head hts)]
  rfl

namespace Confined

/-- The mark of parameters belongs to the name before it. -/
theorem markedName {k : Kind} (hk : k.isCalm = true) :
    Confined tokens n H true u (fun x rest => x.2 = false → Lacks (.punct .hash) rest) (fun _ => True)
      (markedName k) where
  moves := by
    have hexpect : Moving (Parser.expectText k) :=
      have htext : Confined [] 0 any true true _ _ (Parser.expectText k) := expectText hk
      htext.moves
    exact hexpect.bind fun name => (Moving.accept _).bind fun b => .value (name, b)
  fails c s s' hs hrun := by
    rw [Parser.markedName, bind_apply] at hrun
    rcases hname : Parser.expectText k c s with ⟨_ | name, s₁⟩
    · rw [hname] at hrun
      cases hrun
      exact (expectText (u := true) hk).fails c s s' hs hname
    · rw [hname] at hrun
      replace hrun : (Parser.accept (.punct .hash) >>= fun b => pure (name, b)) c s₁ = (none, s') := hrun
      rw [accept_bind] at hrun
      rcases eat_cases (.punct .hash) c s₁ with ⟨t, ts, -, -, heat⟩ | ⟨-, heat⟩ <;>
        · rw [bind_of_some heat] at hrun
          cases hrun
  runs c s x s' hs hrun hclean := by
    obtain ⟨cs, rest, ds, ns⟩ := s
    obtain ⟨name, s₁, hname, hmarked⟩ := bind_eq_some.mp hrun
    clear hrun
    obtain ⟨t, hkind, -, hrest⟩ := expectText_eq_some hname
    replace hrest : rest = t :: s₁.rest := hrest
    rw [hrest, expectText_of_kind hkind] at hname
    generalize s₁.rest = us at hname hrest
    cases hname
    subst hrest
    have hcommon : ∀ vs, ∀ t' ∈ (t :: vs).head?, t'.kind.isCommon = true := by
      rintro vs t' ht
      cases ht
      rw [hkind]
      exact Kind.common_of_calm hk
    have hquiet : Neutral [t] := .of_calm (by rw [hkind]; exact hk)
    obtain ⟨b, s₂, hmark, hdone⟩ := bind_eq_some.mp hmarked
    obtain ⟨rfl, rfl⟩ := pure_eq_some.mp hdone
    rcases accept_eq_some hmark with ⟨rfl, t', hkind', hrest'⟩ | ⟨rfl, rfl, hlacks⟩
    · replace hrest' : us = t' :: s₂.rest := hrest'
      rw [hrest', accept_of_kind hkind'] at hmark
      generalize s₂.rest = vs at hmark hrest'
      cases hmark
      subst hrest'
      refine ⟨trivial, [t, t'], hcommon [t'], ⟨rfl, rfl⟩, hquiet.append (.single ?_), fun _ => List.cons_ne_nil _ _,
        fun cs' rest' _ _ c' ns' => ⟨ns', markedName_of_hash hkind hkind' c' cs' rest' [] ns'⟩⟩
      rw [hkind']
      rfl
    · refine ⟨trivial, [t], hcommon [], ⟨rfl, rfl⟩, hquiet, fun _ => List.cons_ne_nil _ _, ?_⟩
      intro cs' rest' _ hrest' c' ns'
      refine ⟨ns', markedName_of_lacks hkind ?_ c' cs' [] ns'⟩
      exact hrest'.elim (fun hsame => hsame.lacks rfl) fun hstops => hstops rfl

theorem hashed {k : Kind} {f : String → Bool → Parser β} {q : Bool} {F : β → List Token → Prop} {Q : β → Prop}
    (hf : ∀ name b, Confined tokens m any q true F Q (f name b)) (hm : n ≤ m + 1) (hk : k.isCalm = true)
    (hF : ∀ b rest, F b rest → Lacks (.punct .hash) rest) :
    Confined tokens n H true u F Q (do
      let name ← Parser.expectText k
      let b ← Parser.accept (.punct .hash)
      f name b) := by
  have hmarked : Confined tokens n H true u _ _ (Parser.markedName k) := markedName hk
  have hrest : ∀ x : String × Bool, Confined tokens m any q (u || true) F (fun b => True → Q b) (f x.1 x.2) := by
    intro x
    rw [Bool.or_true]
    exact (hf x.1 x.2).imp fun b hb _ => hb
  have hname := hmarked.bind hrest hm (.inr fun _ b rest hrest _ => hF b rest hrest)
  rw [Parser.markedName, bind_assoc] at hname
  simp only [bind_assoc, pure_bind, Bool.true_or] at hname
  exact hname

theorem bitBound : Confined tokens n H true u anything (fun _ => True) bitBound := by
  refine .seq false .any (expect rfl) fun t => ?_
  cases plainNumber? t.text with
  | some n => exact .ret trivial
  | none => exact .reportFail _ _

/-- Neither parameters of a type nor the bounds of a vector of bits come next. -/
def Unmarked (rest : List Token) : Prop := Lacks (.punct .hash) rest ∧ Lacks (.punct .lbracket) rest

theorem typeForm {inner : Parser TypeExpr} (hinner : Confined tokens n any true true never (fun _ => True) inner) :
    Confined tokens (n + 1) H true u (fun _ => Unmarked) (fun _ => True) (typeForm inner) := by
  refine .peek fun k => ?_
  split
  · refine hashed (q := false) (fun name b => ?_) (Nat.le_refl _) rfl fun _ _ h => h.1
    cases b with
    | true =>
      refine .maybe (r := true) (.seq true .any (expectPunct rfl) fun _ => ?_)
      refine .seq true .reads (separated hinner rfl) fun params => ?_
      exact .seq false .any (expectPunct rfl) fun _ => .ret trivial
    | false => exact .ret trivial
  · exact .seq false .any (expectText rfl) fun name => .ret trivial
  · refine .seq false .any (expect rfl) fun t => ?_
    cases plainNumber? t.text with
    | some n => exact .ret trivial
    | none => exact .reportFail _ _
  · refine .first false .any (skip rfl) fun _ => ?_
    refine .accept rfl (.inr fun _ _ h => h.2) (.maybe (r := true) ?_) (.ret fun _ => trivial)
    refine .seq true .any bitBound fun hi => ?_
    refine .seq true .any (expectPunct rfl) fun _ => ?_
    refine .seq true .any bitBound fun lo => ?_
    exact .seq false .any (expectPunct rfl) fun _ => .ret fun _ => trivial
  · exact .failExpected .type

/-- A type ends by its own tokens in front of anything but its parameters or bounds. -/
theorem typeAlone : Confined tokens n H true u (fun _ => Unmarked) (fun _ => True) type := by
  suffices h : Confined tokens n any true false (fun _ => Unmarked) (fun _ => True) Parser.type from h.part
  induction n with
  | zero => exact .vacuous .type
  | succ n ih =>
    rw [type_eq]
    refine .offset fun start => ?_
    refine .seq false .same (typeForm ?_) fun form => .spanned fun _ => trivial
    exact (ih.narrow fun _ _ h => h.elim).behind

theorem type : Confined tokens n H true u never (fun _ => True) type := typeAlone.narrow fun _ _ h => h.elim

/-! ## Formals -/

/-- A parser that looks at two tokens, before one that reads the first of them. -/
theorem lookTwo {q : Parser α} (answer : List Token → α) {f : α → Parser β} {Q : β → Prop}
    (hq : ∀ c s, q c s = (some (answer s.rest), s))
    (htwo : ∀ t t' x y, answer (t :: t' :: x) = answer (t :: t' :: y))
    (hf : ∀ a, Confined tokens n H true u never Q (f a)) : Confined tokens n H true u never Q (q >>= f) where
  moves := .bind (.look fun c s => by rw [hq]) fun a => (hf a).moves
  fails c s s' hs hrun := by
    rw [bind_of_some (hq c s)] at hrun
    exact (hf _).fails c s s' hs hrun
  runs c s b s' hs hrun hclean := by
    rw [bind_of_some (hq c s)] at hrun
    obtain ⟨hQ, ts, hcommon, hts⟩ := (hf _).runs c s b s' hs hrun hclean
    refine ⟨hQ, ts, hcommon, hts.took, hts.shape, hts.reads, fun cs rest hcs hrest => ?_⟩
    refine .look (fun c' ns => ?_) (hts.again cs rest hcs hrest)
    rw [hq, hts.took.rest]
    obtain ⟨t, us, rfl⟩ := List.exists_cons_of_ne_nil (hts.reads rfl)
    cases us with
    | cons t' us => exact congrArg (fun a => (some a, _)) (htwo t t' _ _)
    | nil =>
      obtain ⟨t', x, y, hx, rfl, -⟩ := hrest.elim id fun h => h.elim
      rw [hx]
      exact congrArg (fun a => (some a, _)) (htwo t t' _ _)

theorem formal (untyped : Bool) : Confined tokens n any true true never (fun _ => True) (formal untyped) := by
  refine .skipAttributes (.offset fun start => ?_)
  have hname : ∀ type : Option TypeExpr, Confined tokens n any true true never (fun _ => True)
      (do
        let name ← Parser.expectText .ident
        return Formal.mk type name (← spanFrom start)) :=
    fun type => .seq false .any (expectText rfl) fun name => .spanned fun _ => trivial
  refine .lookTwo (fun rest => State.isNext ⟨[], rest, [], []⟩ .ident &&
      (State.nth ⟨[], rest, [], []⟩ 1 == some (.punct .comma) ||
        State.nth ⟨[], rest, [], []⟩ 1 == some (.punct .rparen))) (fun _ _ => rfl) (fun _ _ _ _ => rfl) fun bare => ?_
  cases untyped && bare with
  | true => exact hname none
  | false => exact .seq true .reads (type.map (Q := fun _ => True) some .same fun _ _ => trivial) hname

theorem formalsIfAny (untyped : Bool) :
    Confined tokens n any false true (fun _ => Lacks (.punct .lparen)) (fun _ => True) (formalsIfAny untyped) := by
  refine .isNext (.inr fun _ _ h => h) ?_ (.ret trivial)
  refine .seq true .reads (expectPunct rfl) fun _ => ?_
  exact (enclosed (formal untyped) rfl).weaken (Nat.le_refl n) (fun _ hk => hk) id id (fun _ _ _ => trivial)
    fun _ _ => trivial

theorem moduleParam : Confined tokens n any true true never (fun _ => True) moduleParam := by
  refine .skipAttributes (.offset fun start => ?_)
  refine .pass .reads (accepted rfl) fun marked => ?_
  refine .seq true .reads type fun type => ?_
  exact .seq false .any (expectText rfl) fun name => .spanned fun _ => trivial

theorem moduleArg : Confined tokens n any true true never (fun _ => True) moduleArg := by
  refine .skipAttributes (.offset fun start => ?_)
  refine .seq false .never type fun type => ?_
  exact .eat rfl (.inr fun _ _ h => h.elim) (fun t => .spanned fun _ _ => trivial) (.spanned fun _ => trivial)

theorem moduleArgs :
    Confined tokens n any false true (fun _ => Lacks (.punct .lparen)) (fun _ => True) moduleArgs := by
  refine .accept rfl (.inr fun _ _ h => h) (.maybe (r := true) ?_) (.ret trivial)
  exact (enclosed moduleArg rfl).weaken (Nat.le_refl n) (fun _ hk => hk) id id (fun _ _ _ => trivial)
    fun _ _ => trivial

theorem skipProvisos :
    Confined tokens n any false true (fun _ => Lacks (.keyword .provisos)) (fun _ => True) skipProvisos := by
  refine .isNext (.inr fun _ _ h => h) (.dirty ?_ ?_) (.ret trivial)
  · refine .bind (.look fun _ _ => rfl) fun start => .bind (fun _ s => .step s) fun _ => ?_
    refine Moving.skipParenthesized.bind fun _ => .bind (.look fun _ _ => rfl) fun span => ?_
    exact .reportUnsupported span .provisos
  · refine .after (fun _ _ => ⟨_, _, rfl⟩) fun start => .after (fun _ _ => ⟨_, _, rfl⟩) fun _ => ?_
    refine .after skipParenthesized_yields fun _ => .after (fun _ _ => ⟨_, _, rfl⟩) fun span => ?_
    exact .reportUnsupported span .provisos

end Confined

/-! ## Declarations with a type -/

/-- A name of a type with no parameters is a type. -/
theorem type_of_typeIdent {t : Token} {ts : List Token} (hk : t.kind = .typeIdent) (hts : Lacks (.punct .hash) ts)
    (c : Setting) (cs : List Token) (ds : List Diagnostic) (ns : List NodeSpan) :
    ∃ ty, type c ⟨cs, t :: ts, ds, ns⟩ = (some ty, ⟨t :: cs, ts, ds, ns⟩) := by
  rw [type_eq, bind_of_some offset_cons]
  have hform : typeForm type c ⟨cs, t :: ts, ds, ns⟩ = (some (.named t.text []), ⟨t :: cs, ts, ds, ns⟩) := by
    rw [typeForm, bind_of_some peek_cons]
    simp only [hk]
    rw [bind_of_some (expectText_of_kind hk), bind_of_some (accept_of_head hts)]
    rfl
  rw [bind_of_some hform]
  exact ⟨_, rfl⟩

/-- A name of a type is the beginning of a declaration if a name of a value follows, and if the mark of parameters
does not follow only then. -/
theorem typeAndName_of_typeIdent {t : Token} {ts : List Token} (hk : t.kind = .typeIdent)
    (hts : Lacks (.punct .hash) ts) (c : Setting) (cs : List Token) (ds : List Diagnostic) (ns : List NodeSpan) :
    typeAndName c ⟨cs, t :: ts, ds, ns⟩ = (ts.head?.map Token.kind == some .ident) := by
  obtain ⟨ty, htype⟩ := type_of_typeIdent hk hts c cs ds ns
  rw [typeAndName, htype]
  rfl

/-- Where a type and a name have been read, the same tokens begin a declaration wherever else they stand. -/
theorem typeAndName_elsewhere {c : Setting} {s s₁ s₂ s' : State} {ty : TypeExpr} {name : Token} {ts : List Token}
    (htype : type c s = (some ty, s₁)) (hname : expect .ident c s₁ = (some name, s₂)) (hmoves : s₂.Moves s')
    (hclean : s'.diagnostics = []) (hts : s.Took ts s') (c' : Setting) (cs rest : List Token) (ns : List NodeSpan) :
    typeAndName c' ⟨cs, ts ++ rest, [], ns⟩ = true := by
  have hclean₁ := ((Moving.expect _).of_run hname).clean (hmoves.clean hclean)
  have htypes : Confined s.rest (s.rest.length + 1) any true false _ _ type := Confined.type
  obtain ⟨-, ts₁, -, hts₁⟩ := htypes.runs c s ty s₁ ⟨Nat.lt_succ_self _, List.suffix_refl _, trivial⟩ htype hclean₁
  obtain ⟨hk, hcons⟩ := expect_eq_some hname
  obtain ⟨us, hus⟩ := hmoves.rest
  have hsplit : ts = ts₁ ++ name :: us := by
    refine (List.append_left_inj s'.rest).mp ?_
    rw [← hts.rest, hts₁.took.rest, hcons, ← hus, List.append_assoc, List.cons_append]
  have hnext : SameNext s₁.rest (name :: us ++ rest) := by
    rw [hcons]
    exact .of_cons (by rw [hk]; rfl)
  obtain ⟨ns', hgo⟩ := hts₁.again cs (name :: us ++ rest) nofun (.inl hnext) c' ns
  rw [hsplit, List.append_assoc, typeAndName, hgo]
  show (some name.kind == some Kind.ident) = true
  rw [hk]
  rfl

/-- Where a name of a type begins no declaration, it begins none wherever else it stands, if parameters follow neither
here nor there. -/
theorem not_typeAndName_elsewhere {c : Setting} {cs₀ : List Token} {ds₀ : List Diagnostic} {ns₀ : List NodeSpan}
    {t : Token} {us after rest : List Token} (hk : t.kind = .typeIdent)
    (hnot : typeAndName c ⟨cs₀, t :: (us ++ after), ds₀, ns₀⟩ = false)
    (hmore : us ≠ [] → Lacks (.punct .hash) (us ++ after))
    (hrest : SameNext after rest ∨ us ≠ [] ∨ Lacks (.punct .hash) rest ∧ Lacks .ident rest) (c' : Setting)
    (cs : List Token) (ns : List NodeSpan) : typeAndName c' ⟨cs, t :: (us ++ rest), [], ns⟩ = false := by
  cases us with
  | cons t' us =>
    have hlacks : Lacks (.punct .hash) (t' :: us ++ after) := hmore (List.cons_ne_nil _ _)
    rw [typeAndName_of_typeIdent hk hlacks] at hnot
    rw [typeAndName_of_typeIdent hk (show Lacks (.punct .hash) (t' :: us ++ rest) from hlacks)]
    exact hnot
  | nil =>
    rw [List.nil_append] at hnot ⊢
    rcases hrest with hsame | hne | ⟨hhash, hident⟩
    · have hlacks : Lacks (.punct .hash) after := by
        intro t' ht hk'
        have hcommon := hsame.common t' ht
        rw [hk'] at hcommon
        cases hcommon
      rw [typeAndName_of_typeIdent hk hlacks] at hnot
      rw [typeAndName_of_typeIdent hk (hsame.lacks rfl), hsame.head]
      exact hnot
    · exact absurd rfl hne
    · rw [typeAndName_of_typeIdent hk hhash]
      cases rest with
      | nil => rfl
      | cons t' rest => exact beq_false_of_ne fun h => hident t' rfl (Option.some.inj h)

theorem startsTyped_cases {k : Kind} (h : startsTyped k = true) : k = .typeIdent ∨ k = .keyword .bit := by
  unfold startsTyped at h
  split at h
  · exact .inl rfl
  · exact .inr rfl
  · cases h

/-- A choice by whether a declaration with a type comes next.  Otherwise a name of a type may come first, but not with
parameters. -/
theorem Confined.atTypedDecl {F : β → List Token → Prop} {Q : β → Prop} {f : Bool → Parser β}
    (htrue : Confined tokens n H true u F Q (f true)) (hfalse : Confined tokens n H true u F Q (f false))
    (htyped : ∀ c s b s', s.peek.any startsTyped = true → typeAndName c s = true → f true c s = (some b, s') →
      ∃ ty s₁ name s₂, Parser.type c s = (some ty, s₁) ∧ Parser.expect .ident c s₁ = (some name, s₂) ∧ s₂.Moves s')
    (hbit : ∀ c s b s', s.peek = some (.keyword .bit) → f false c s = (some b, s') → s'.diagnostics ≠ [])
    (hname : ∀ c s b s' t ts, s.rest = t :: ts → t.kind = .typeIdent → f false c s = (some b, s') →
      s'.diagnostics = [] → s'.rest = ts ∨ Lacks (.punct .hash) ts)
    (hF : (∀ c s b s', f false c s = (some b, s') → s'.diagnostics = [] → s'.rest.length + 1 < s.rest.length) ∨
      ∀ b rest, F b rest → Lacks (.punct .hash) rest ∧ Lacks .ident rest) :
    Confined tokens n H true u F Q (Parser.atTypedDecl >>= f) where
  moves := by
    refine .bind (.look fun c s => by rw [atTypedDecl_eq]) fun b => ?_
    cases b with
    | true => exact htrue.moves
    | false => exact hfalse.moves
  fails c s s' hs hrun := by
    rw [bind_of_some (atTypedDecl_eq c s)] at hrun
    cases hb : s.peek.any startsTyped && typeAndName c s with
    | true =>
      rw [hb] at hrun
      exact htrue.fails c s s' hs hrun
    | false =>
      rw [hb] at hrun
      exact hfalse.fails c s s' hs hrun
  runs c s b s' hs hrun hclean := by
    rw [bind_of_some (atTypedDecl_eq c s)] at hrun
    cases hb : s.peek.any startsTyped && typeAndName c s with
    | true =>
      rw [hb] at hrun
      obtain ⟨hQ, ts, hcommon, hts⟩ := htrue.runs c s b s' hs hrun hclean
      refine ⟨hQ, ts, hcommon, hts.took, hts.shape, hts.reads, fun cs rest hcs hrest => ?_⟩
      refine .look (fun c' ns => ?_) (hts.again cs rest hcs hrest)
      obtain ⟨hstarts, hnamed⟩ := Bool.and_eq_true_iff.mp hb
      obtain ⟨ty, s₁, name, s₂, htype, hident, hmoves⟩ := htyped c s b s' hstarts hnamed hrun
      rw [atTypedDecl_eq, typeAndName_elsewhere htype hident hmoves hclean hts.took]
      obtain ⟨t, us, rfl⟩ := List.exists_cons_of_ne_nil (hts.reads rfl)
      rw [State.peek, hts.took.rest] at hstarts
      rw [show State.peek ⟨cs, t :: us ++ rest, [], ns⟩ = some t.kind from rfl, show (some t.kind).any startsTyped = true
        from hstarts]
      rfl
    | false =>
      rw [hb] at hrun
      obtain ⟨hQ, ts, hcommon, hts⟩ := hfalse.runs c s b s' hs hrun hclean
      refine ⟨hQ, ts, hcommon, hts.took, hts.shape, hts.reads, fun cs rest hcs hrest => ?_⟩
      refine .look (fun c' ns => ?_) (hts.again cs rest hcs hrest)
      obtain ⟨t, us, rfl⟩ := List.exists_cons_of_ne_nil (hts.reads rfl)
      have hcons : s.rest = t :: (us ++ s'.rest) := hts.took.rest
      have hpeek : s.peek = some t.kind := by rw [State.peek, hcons]; rfl
      rw [atTypedDecl_eq]
      refine congrArg (fun b => (some b, _)) ?_
      show (startsTyped t.kind && typeAndName c' ⟨cs, t :: (us ++ rest), [], ns⟩) = false
      rw [hpeek, Option.any_some] at hb
      cases hstarts : startsTyped t.kind with
      | false => rfl
      | true =>
        rw [hstarts, Bool.true_and] at hb
        rw [Bool.true_and]
        have hk : t.kind = .typeIdent :=
          (startsTyped_cases hstarts).resolve_right fun hk => hbit c s b s' (by rw [hpeek, hk]) hrun hclean
        obtain ⟨cs₀, rest₀, ds₀, ns₀⟩ := s
        cases hcons
        refine not_typeAndName_elsewhere hk hb (fun hus => ?_) (hrest.imp_right fun hstops => ?_) c' cs ns
        · refine (hname c _ b s' t _ rfl hk hrun hclean).resolve_left fun heq => hus ?_
          exact List.append_left_eq_self.mp heq.symm
        · rcases hF with hlong | hF
          · refine .inl ?_
            rintro rfl
            exact absurd (hlong c _ b s' hrun hclean) (Nat.lt_irrefl _)
          · exact .inr (hF b rest hstops)

end Bluespec.Parser
