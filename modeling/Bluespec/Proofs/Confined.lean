import Bluespec.Proofs.FullGrammar
import Bluespec.Proofs.Running

/-!
# Runs that the tokens read decide

A run without diagnostics reads some tokens, and looks at what follows them only to see where to stop.  So the same
tokens are read in the same way wherever else they stand, before a rest that tells the parser to stop.

* **`State.Took`** — the tokens read between two states; **`Neutral`** — tokens whose action words are in pairs.
* **`Goes`** — a run over given tokens; **`Contained`** — a run that goes the same way elsewhere.
* **`Confined`** — every run of a parser without diagnostics is such a run, and its value has a property; with one
  rule for each way to put parsers together.
-/

namespace Bluespec

/-! ## Kinds and tokens -/

/-- Whether a token of the kind means the same in front of whatever stands behind it: it neither joins conditions,
which a conditional may or may not follow, nor turns the name before it into a type. -/
def Kind.isCommon : Kind → Bool
  | .punct .ampAmpAmp | .punct .hash => false
  | _ => true

/-- Whether the kind opens or closes an action block. -/
def Kind.isActionWord : Kind → Bool
  | .keyword .action | .keyword .actionvalue | .keyword .endaction | .keyword .endactionvalue => true
  | _ => false

/-- Whether a token of the kind belongs to something that is supported. -/
def Kind.isSupported : Kind → Bool
  | .keyword .case | .keyword .endcase | .keyword .for_ | .keyword .while_ | .keyword .typeDef
  | .keyword .typeclass | .keyword .endtypeclass | .keyword .instance_ | .keyword .endinstance
  | .keyword .provisos | .keyword .matches_ | .punct .attrOpen | .punct .attrClose | .systemIdent => false
  | _ => true

/-- Whether a token of the kind is a common one and no such word, and belongs to something that is supported. -/
def Kind.isCalm (k : Kind) : Bool := k.isCommon && (!k.isActionWord && k.isSupported)

theorem Kind.common_of_calm {k : Kind} (h : k.isCalm = true) : k.isCommon = true := (Bool.and_eq_true_iff.mp h).1

/-- Tokens in which every word that opens an action block has its closing word, and that all belong to something that
is supported. -/
structure Neutral (ts : List Token) : Prop where
  paired : ∀ depth rest, afterActionWords (depth + 1) (ts ++ rest) = afterActionWords (depth + 1) rest
  supported : ∀ t ∈ ts, t.kind.isSupported = true

namespace Neutral

variable {t t' : Token} {ts ts' : List Token}

theorem nil : Neutral [] := ⟨fun _ _ => rfl, nofun⟩

theorem append (h : Neutral ts) (h' : Neutral ts') : Neutral (ts ++ ts') := by
  refine ⟨fun depth rest => ?_, List.forall_mem_append.mpr ⟨h.supported, h'.supported⟩⟩
  rw [List.append_assoc, h.paired, h'.paired]

theorem single (h : (!t.kind.isActionWord && t.kind.isSupported) = true) : Neutral [t] := by
  obtain ⟨hword, hsupported⟩ := Bool.and_eq_true_iff.mp h
  rw [Bool.not_eq_true'] at hword
  refine ⟨fun depth rest => ?_, fun u hu => List.mem_singleton.mp hu ▸ hsupported⟩
  have hopen : ¬ (t.kind = .keyword .action ∨ t.kind = .keyword .actionvalue) := by
    rintro (hk | hk) <;> rw [hk] at hword <;> cases hword
  have hclose : ¬ (t.kind = .keyword .endaction ∨ t.kind = .keyword .endactionvalue) := by
    rintro (hk | hk) <;> rw [hk] at hword <;> cases hword
  rw [List.singleton_append, afterActionWords, if_neg hopen, if_neg hclose]

theorem of_calm (h : t.kind.isCalm = true) : Neutral [t] := single (Bool.and_eq_true_iff.mp h).2

end Neutral

/-- Two words that open and close a block: those of an action block, or others. -/
def Keyword.Pair (opening closing : Keyword) : Prop :=
  (Kind.keyword opening).isCalm = true ∧ (Kind.keyword closing).isCalm = true ∨
    (opening = .action ∨ opening = .actionvalue) ∧ (closing = .endaction ∨ closing = .endactionvalue)

theorem afterActionWords_opening {t : Token} {opening : Keyword} (hk : t.kind = .keyword opening)
    (h : opening = .action ∨ opening = .actionvalue) (depth : Nat) (ts : List Token) :
    afterActionWords depth (t :: ts) = afterActionWords (depth + 1) ts := by
  have hopen : t.kind = .keyword .action ∨ t.kind = .keyword .actionvalue := by
    rcases h with rfl | rfl
    · exact .inl hk
    · exact .inr hk
  rw [afterActionWords, if_pos hopen]

theorem afterActionWords_closing {t : Token} {closing : Keyword} (hk : t.kind = .keyword closing)
    (h : closing = .endaction ∨ closing = .endactionvalue) (depth : Nat) (ts : List Token) :
    afterActionWords (depth + 1) (t :: ts) = if depth = 0 then ts else afterActionWords depth ts := by
  have hopen : ¬ (t.kind = .keyword .action ∨ t.kind = .keyword .actionvalue) := by
    rcases h with rfl | rfl <;> rw [hk] <;> decide
  have hclose : t.kind = .keyword .endaction ∨ t.kind = .keyword .endactionvalue := by
    rcases h with rfl | rfl
    · exact .inl hk
    · exact .inr hk
  rw [afterActionWords, if_neg hopen, if_pos hclose, Nat.add_sub_cancel]

/-- Neutral tokens between words that open and close a block. -/
theorem Neutral.between {t t' : Token} {ts : List Token} {opening closing : Keyword} (hpair : opening.Pair closing)
    (ht : t.kind = .keyword opening) (ht' : t'.kind = .keyword closing) (h : Neutral ts) :
    Neutral (t :: (ts ++ [t'])) := by
  rcases hpair with ⟨hopen, hclose⟩ | ⟨hopen, hclose⟩
  · rw [← ht] at hopen
    rw [← ht'] at hclose
    exact (of_calm hopen).append (h.append (of_calm hclose))
  · refine ⟨fun depth rest => ?_, List.forall_mem_cons.mpr ⟨?_, List.forall_mem_append.mpr ⟨h.supported, ?_⟩⟩⟩
    · rw [List.cons_append, List.append_assoc, afterActionWords_opening ht hopen, h.paired, List.singleton_append,
        afterActionWords_closing ht' hclose, if_neg (Nat.succ_ne_zero _)]
    · rcases hopen with rfl | rfl <;> rw [ht] <;> rfl
    · refine List.forall_mem_singleton.mpr ?_
      rcases hclose with rfl | rfl <;> rw [ht'] <;> rfl

namespace Parser

variable {α β : Type}

/-! ## Tokens that are read -/

/-- The tokens that were read on the way from one state to another. -/
structure State.Took (s : State) (ts : List Token) (s' : State) : Prop where
  consumed : s'.consumed = ts.reverse ++ s.consumed
  rest : s.rest = ts ++ s'.rest

namespace State.Took

variable {s s₁ s' : State} {ts ts' : List Token}

theorem nil (s : State) : s.Took [] s := ⟨rfl, rfl⟩

theorem step {t : Token} (h : s.rest = t :: ts) : s.Took [t] s.step := by
  obtain ⟨cs, rest, ds, ns⟩ := s
  cases h
  exact ⟨rfl, rfl⟩

theorem append (h : s.Took ts s₁) (h' : s₁.Took ts' s') : s.Took (ts ++ ts') s' := by
  constructor
  · rw [h'.consumed, h.consumed, List.reverse_append, List.append_assoc]
  · rw [h.rest, h'.rest, List.append_assoc]

theorem suffix (h : s.Took ts s') : s'.rest <:+ s.rest := ⟨ts, h.rest.symm⟩

theorem unique (h : s.Took ts s') (h' : s.Took ts' s') : ts = ts' :=
  List.append_cancel_right (h.rest.symm.trans h'.rest)

theorem length_lt (h : s.Took ts s') (hne : ts ≠ []) : s'.rest.length < s.rest.length := by
  have hpos := List.length_pos_iff.mpr hne
  rw [h.rest, List.length_append]
  omega

theorem length_le (h : s.Took ts s') : s'.rest.length ≤ s.rest.length := h.suffix.length_le

end State.Took

/-- The end of the last of some tokens, the last one first. -/
def lastStop (cs : List Token) : Nat := (cs.head?.map fun t => t.span.stop).getD 0

theorem lastStop_reverse_append {ts : List Token} (h : ts ≠ []) (cs cs' : List Token) :
    lastStop (ts.reverse ++ cs) = lastStop (ts.reverse ++ cs') := by
  obtain ⟨t, us, hts⟩ := List.exists_cons_of_ne_nil (mt List.reverse_eq_nil_iff.mp h)
  rw [hts]
  rfl

/-- From the tokens `ts` the parser yields `a`, without diagnostics, when `rest` follows them. -/
def Goes (p : Parser α) (cs ts : List Token) (a : α) (rest : List Token) : Prop :=
  ∀ c ns, ∃ ns', p c ⟨cs, ts ++ rest, [], ns⟩ = (some a, ⟨ts.reverse ++ cs, rest, [], ns'⟩)

namespace Goes

variable {p : Parser α} {f : α → Parser β} {a : α} {b : β} {cs ts ts' rest : List Token}

theorem value : Goes (pure a) cs [] a rest := fun _ ns => ⟨ns, rfl⟩

theorem bind (h : Goes p cs ts a (ts' ++ rest)) (h' : Goes (f a) (ts.reverse ++ cs) ts' b rest) :
    Goes (p >>= f) cs (ts ++ ts') b rest := by
  intro c ns
  obtain ⟨ns₁, hp⟩ := h c ns
  obtain ⟨ns', hf⟩ := h' c ns₁
  refine ⟨ns', ?_⟩
  rw [List.append_assoc, bind_of_some hp, hf, List.reverse_append, List.append_assoc]

/-- A parser that only looks, and then another one. -/
theorem look (h : ∀ c ns, p c ⟨cs, ts ++ rest, [], ns⟩ = (some a, ⟨cs, ts ++ rest, [], ns⟩))
    (h' : Goes (f a) cs ts b rest) : Goes (p >>= f) cs ts b rest := by
  intro c ns
  obtain ⟨ns', hf⟩ := h' c ns
  exact ⟨ns', by rw [bind_of_some (h c ns), hf]⟩

end Goes

/-! ## Runs that go the same way elsewhere -/

/-- Two rests begin with the same token, which is a common one. -/
def SameNext (rest rest' : List Token) : Prop := ∃ t x y, rest = t :: x ∧ rest' = t :: y ∧ t.kind.isCommon = true

theorem SameNext.of_cons {t : Token} {x y : List Token} (h : t.kind.isCommon = true) : SameNext (t :: x) (t :: y) :=
  ⟨t, x, y, rfl, rfl, h⟩

theorem SameNext.head {rest rest' : List Token} (h : SameNext rest rest') : rest'.head? = rest.head? := by
  obtain ⟨t, x, y, rfl, rfl, -⟩ := h
  rfl

theorem SameNext.common {rest rest' : List Token} (h : SameNext rest rest') :
    ∀ t ∈ rest.head?, t.kind.isCommon = true := by
  obtain ⟨t, x, y, rfl, rfl, hk⟩ := h
  rintro u hu
  cases hu
  exact hk

/-- The next token is not of a kind. -/
def Lacks (k : Kind) (rest : List Token) : Prop := ∀ t ∈ rest.head?, t.kind ≠ k

/-- No token is left, or the next one is a closing word. -/
def Closing (rest : List Token) : Prop := ∀ t ∈ rest.head?, t.kind.isCloser = true

theorem SameNext.lacks {rest rest' : List Token} (h : SameNext rest rest') {k : Kind} (hk : k.isCommon = false) :
    Lacks k rest' := by
  obtain ⟨t, x, y, -, rfl, hcommon⟩ := h
  rintro t' ht rfl
  cases ht
  rw [hk] at hcommon
  exact Bool.false_ne_true hcommon

/-- A run that yields `a` reads the tokens `ts`, and they are read in the same way wherever else they stand.  If
`read` holds there are such tokens; if `after` holds the last token read before has to end at the same place; what
comes then begins with the same token, or it is such that the parser stops there.  The tokens are of the shape `N`. -/
structure Contained (N : List Token → Prop) (p : Parser α) (read after : Bool) (stops : List Token → Prop) (a : α) (s : State)
    (ts : List Token) (s' : State) : Prop where
  took : s.Took ts s'
  shape : N ts
  reads : read = true → ts ≠ []
  again : ∀ cs rest, (after = true → lastStop cs = lastStop s.consumed) → SameNext s'.rest rest ∨ stops rest →
    Goes p cs ts a rest

namespace Contained

variable {N N' M : List Token → Prop} {p : Parser α} {f : α → Parser β} {a : α} {b : β} {s s₁ s' : State}
  {ts ts' : List Token} {r r' u : Bool} {F F' : List Token → Prop}

/-- Two such runs in a row. -/
theorem bind (h : Contained N p r u F' a s ts s₁) (h' : Contained N' (f a) r' (u || r) F b s₁ ts' s')
    (hshape : ∀ ts ts', N ts → N' ts' → M (ts ++ ts'))
    (hnext : ∀ rest, SameNext s'.rest rest ∨ F rest → SameNext s₁.rest (ts' ++ rest) ∨ F' (ts' ++ rest)) :
    Contained M (p >>= f) (r || r') u F b s (ts ++ ts') s' where
  took := h.took.append h'.took
  shape := hshape ts ts' h.shape h'.shape
  reads := by
    intro hr
    rcases Bool.or_eq_true_iff.mp hr with hr | hr
    · exact List.append_ne_nil_of_left_ne_nil (h.reads hr) _
    · exact List.append_ne_nil_of_right_ne_nil _ (h'.reads hr)
  again := by
    intro cs rest hcs hrest
    refine Goes.bind (h.again cs (ts' ++ rest) hcs (hnext rest hrest)) (h'.again _ rest ?_ hrest)
    intro hu
    rw [h.took.consumed]
    by_cases hts : ts = []
    · subst hts
      rcases Bool.or_eq_true_iff.mp hu with hu | hr
      · exact hcs hu
      · exact absurd rfl (h.reads hr)
    · exact lastStop_reverse_append hts _ _

/-- What is read next begins with a common token, or nothing is read and the parser stops. -/
theorem next (h' : Contained N p r u F a s₁ ts' s') (hcommon : ∀ t ∈ ts'.head?, t.kind.isCommon = true)
    (hF : ts' = [] → ∀ rest, F rest → F' rest) {rest : List Token} (hrest : SameNext s'.rest rest ∨ F rest) :
    SameNext s₁.rest (ts' ++ rest) ∨ F' (ts' ++ rest) := by
  rw [h'.took.rest]
  cases ts' with
  | cons t ts' => exact .inl (.of_cons (hcommon t rfl))
  | nil => exact hrest.imp_right (hF rfl rest)

theorem weaken (h : Contained N p r u F' a s ts s') {u' : Bool} (hr : r' = true → r = true)
    (hu : u = true → u' = true) (hF : ∀ rest, F rest → F' rest) : Contained N p r' u' F a s ts s' where
  took := h.took
  shape := h.shape
  reads hr' := h.reads (hr hr')
  again cs rest hcs hrest := h.again cs rest (fun hu' => hcs (hu hu')) (hrest.imp_right (hF rest))

/-- Where a token is read, one token less is left. -/
theorem bound (h : Contained N p r u F a s ts s') {n m : Nat} (hm : n ≤ m + r.toNat) : n ≤ m + ts.length := by
  refine Nat.le_trans hm (Nat.add_le_add_left ?_ m)
  cases r with
  | false => exact Nat.zero_le _
  | true => exact List.length_pos_iff.mpr (h.reads rfl)

/-- Nothing is read for a value. -/
theorem value (a : α) (s : State) : Contained Neutral (pure a) false u F a s [] s :=
  ⟨.nil s, .nil, nofun, fun _ _ _ _ => .value⟩

end Contained

/-! ## Confined parsers -/

/-- The states that something is said about: fewer than `n` tokens are left, they belong to a row of tokens, and the
kind of the next one is known. -/
structure Starts (tokens : List Token) (n : Nat) (head : Option Kind → Prop) (s : State) : Prop where
  bound : s.rest.length < n
  within : s.rest <:+ tokens
  head : head s.peek

/-- Every run that yields a value reads a token. -/
def Advances (p : Parser α) : Prop :=
  ∀ c s a s', p c s = (some a, s') → s'.rest.length < s.rest.length

/-- Every run without diagnostics is contained and yields a value with a property; a run that yields nothing has a
diagnostic, and every run moves forward. -/
structure ConfinedBy (N : List Token → Prop) (tokens : List Token) (n : Nat) (head : Option Kind → Prop) (read after : Bool)
    (stops : α → List Token → Prop) (P : α → Prop) (p : Parser α) : Prop where
  moves : Moving p
  fails : ∀ c s s', Starts tokens n head s → p c s = (none, s') → s'.diagnostics ≠ []
  runs : ∀ c s a s', Starts tokens n head s → p c s = (some a, s') → s'.diagnostics = [] →
    P a ∧ ∃ ts, (∀ t ∈ ts.head?, t.kind.isCommon = true) ∧ Contained N p read after (stops a) a s ts s'

/-- The same where the words of action blocks are in pairs. -/
abbrev Confined (tokens : List Token) (n : Nat) (head : Option Kind → Prop) (read after : Bool)
    (stops : α → List Token → Prop) (P : α → Prop) (p : Parser α) : Prop :=
  ConfinedBy Neutral tokens n head read after stops P p

/-- Anything may follow. -/
abbrev anything : α → List Token → Prop := fun _ _ => True

/-- What follows has to begin with the same token. -/
abbrev never : α → List Token → Prop := fun _ _ => False

/-- Whatever the next token is. -/
abbrev any : Option Kind → Prop := fun _ => True

/-- A parser stops wherever what comes after it does, or what comes after it reads a token. -/
def Tail (q : Bool) (F : β → List Token → Prop) (F' : α → List Token → Prop) : Prop :=
  q = true ∨ ∀ a b rest, F b rest → F' a rest

namespace Tail

variable {q : Bool} {F : β → List Token → Prop} {F' : α → List Token → Prop} {G : List Token → Prop}

theorem reads : Tail true F F' := .inl rfl

theorem any : Tail q F (anything (α := α)) := .inr fun _ _ _ _ => trivial

theorem never : Tail q (never (α := β)) F' := .inr fun _ _ _ h => h.elim

theorem same : Tail q (fun _ : β => G) (fun _ : α => G) := .inr fun _ _ _ h => h

end Tail

theorem Starts.later {tokens : List Token} {n m : Nat} {H : Option Kind → Prop} {s s' : State} {ts : List Token}
    (h : Starts tokens n H s) (hts : s.Took ts s') (hm : n ≤ m + ts.length) : Starts tokens m any s' := by
  refine ⟨?_, hts.suffix.trans h.within, trivial⟩
  have hlt := h.bound
  rw [hts.rest, List.length_append] at hlt
  omega

/-- Every run ends with a diagnostic. -/
def Complains (p : Parser α) : Prop := ∀ c s, (p c s).2.diagnostics ≠ []

namespace Complains

variable {p : Parser α} {f : α → Parser β}

theorem report (span : Span) (problem : SyntaxProblem) : Complains (report span problem) :=
  fun _ _ => List.cons_ne_nil _ _

theorem reportUnsupported (span : Span) (construct : Construct) : Complains (reportUnsupported span construct) :=
  fun _ _ => List.cons_ne_nil _ _

theorem failExpected (what : Expectation) : Complains (failExpected what : Parser α) :=
  fun _ _ => List.cons_ne_nil _ _

/-- What comes after a report does not take it back. -/
theorem bind (h : Complains p) (hf : ∀ a, Moving (f a)) : Complains (p >>= f) := by
  intro c s
  have hdirty := h c s
  rw [bind_apply]
  rcases hrun : p c s with ⟨_ | a, s'⟩
  · rw [hrun] at hdirty
    exact hdirty
  · rw [hrun] at hdirty
    exact (hf a c s').dirty hdirty

/-- A parser that always yields a value leads to a report. -/
theorem after (h : ∀ c s, ∃ a s', p c s = (some a, s')) (hf : ∀ a, Complains (f a)) : Complains (p >>= f) := by
  intro c s
  obtain ⟨a, s', hrun⟩ := h c s
  rw [bind_of_some hrun]
  exact hf a c s'

end Complains

theorem skipParenthesized_yields (c : Setting) (s : State) : ∃ a s', skipParenthesized c s = (some a, s') := by
  rw [skipParenthesized, bind_of_some (show isNext (.punct .lparen) c s = (some _, s) from rfl)]
  split
  · exact ⟨_, _, rfl⟩
  · exact ⟨_, _, rfl⟩

section Row

variable {f : α → Parser β} {tokens : List Token} {n m : Nat} {H : Option Kind → Prop} {r u : Bool}
  {F : α → List Token → Prop} {F' : β → List Token → Prop} {P : α → Prop} {Q : β → Prop} {p : Parser α}

theorem ConfinedBy.imp {N : List Token → Prop} (hp : ConfinedBy N tokens n H r u F P p) {P' : α → Prop}
    (h : ∀ a, P a → P' a) : ConfinedBy N tokens n H r u F P' p where
  moves := hp.moves
  fails := hp.fails
  runs c s a s' hs hrun hclean := by
    obtain ⟨hPa, hcontained⟩ := hp.runs c s a s' hs hrun hclean
    exact ⟨h a hPa, hcontained⟩

/-- Two parsers in a row.  What is known of the first value helps to show what is claimed of the second one, and where
the second parser reads nothing and stops the first one does. -/
theorem ConfinedBy.bindUnread {N N' M : List Token → Prop} {q : Bool} (hp : ConfinedBy N tokens n H r u F P p)
    (hf : ∀ a, ConfinedBy N' tokens m any q (u || r) F' (fun b => P a → Q b) (f a)) (hm : n ≤ m + r.toNat)
    (hF : ∀ c s a s₁ b s', Starts tokens n H s → p c s = (some a, s₁) → f a c s₁ = (some b, s') →
      s'.diagnostics = [] → s₁.Took [] s' → ∀ rest, F' b rest → F a rest)
    (hshape : ∀ ts ts', N ts → N' ts' → M (ts ++ ts')) : ConfinedBy M tokens n H (r || q) u F' Q (p >>= f) where
  moves := hp.moves.bind fun a => (hf a).moves
  fails c s s' hs hrun := by
    rw [bind_apply] at hrun
    rcases hrun₁ : p c s with ⟨_ | a, s₁⟩
    · rw [hrun₁] at hrun
      cases hrun
      exact hp.fails c s s' hs hrun₁
    · rw [hrun₁] at hrun
      by_cases hclean : s₁.diagnostics = []
      · obtain ⟨-, ts, -, hts⟩ := hp.runs c s a s₁ hs hrun₁ hclean
        exact (hf a).fails c s₁ s' (hs.later hts.took (hts.bound hm)) hrun
      · exact ((hf a).moves.of_run hrun).dirty hclean
  runs c s b s' hs hrun hclean := by
    obtain ⟨a, s₁, hrun₁, hrun₂⟩ := bind_eq_some.mp hrun
    obtain ⟨hPa, ts, hcommon, hts⟩ := hp.runs c s a s₁ hs hrun₁ (((hf a).moves.of_run hrun₂).clean hclean)
    obtain ⟨hQ, ts', hcommon', hts'⟩ :=
      (hf a).runs c s₁ b s' (hs.later hts.took (hts.bound hm)) hrun₂ hclean
    refine ⟨hQ hPa, ts ++ ts', ?_, hts.bind hts' hshape fun rest => hts'.next hcommon' fun hnil => ?_⟩
    · intro t ht
      cases ts with
      | nil => exact hcommon' t ht
      | cons t' ts => exact hcommon t ht
    · exact hF c s a s₁ b s' hs hrun₁ hrun₂ hclean (hnil ▸ hts'.took)

/-- The same where the second value tells something of the first one, or the second parser reads a token. -/
theorem ConfinedBy.bindOf {N N' M : List Token → Prop} {q : Bool} (R : α → β → Prop)
    (hp : ConfinedBy N tokens n H r u F P p)
    (hf : ∀ a, ConfinedBy N' tokens m any q (u || r) F' (fun b => R a b ∧ (P a → Q b)) (f a))
    (hm : n ≤ m + r.toNat) (hF : q = true ∨ ∀ a b rest, R a b → F' b rest → F a rest)
    (hshape : ∀ ts ts', N ts → N' ts' → M (ts ++ ts')) : ConfinedBy M tokens n H (r || q) u F' Q (p >>= f) := by
  refine hp.bindUnread (fun a => (hf a).imp fun _ hb => hb.2) hm ?_ hshape
  intro c s a s₁ b s' hs hrun₁ hrun₂ hclean hnil rest
  obtain ⟨-, ts, -, hts⟩ := hp.runs c s a s₁ hs hrun₁ (((hf a).moves.of_run hrun₂).clean hclean)
  obtain ⟨⟨hR, -⟩, ts', -, hts'⟩ := (hf a).runs c s₁ b s' (hs.later hts.took (hts.bound hm)) hrun₂ hclean
  rcases hF with hq | hF
  · exact absurd (hts'.took.unique hnil) (hts'.reads hq)
  · exact hF a b rest hR

theorem ConfinedBy.bind {N N' M : List Token → Prop} {q : Bool} (hp : ConfinedBy N tokens n H r u F P p)
    (hf : ∀ a, ConfinedBy N' tokens m any q (u || r) F' (fun b => P a → Q b) (f a)) (hm : n ≤ m + r.toNat)
    (hF : Tail q F' F) (hshape : ∀ ts ts', N ts → N' ts' → M (ts ++ ts')) :
    ConfinedBy M tokens n H (r || q) u F' Q (p >>= f) :=
  hp.bindOf (fun _ _ => True) (fun a => (hf a).imp fun _ hb => ⟨trivial, hb⟩) hm
    (hF.imp_right fun hF a b rest _ => hF a b rest) hshape

end Row

namespace Confined

variable {tokens : List Token} {n m : Nat} {H H' : Option Kind → Prop} {r r' u w : Bool}
  {F : α → List Token → Prop} {P : α → Prop} {p : Parser α}

/-! ### Weakening -/

theorem weaken (h : Confined tokens n H r u F P p) {F' : α → List Token → Prop} {P' : α → Prop} {u' : Bool}
    (hn : m ≤ n) (hH : ∀ k, H' k → H k) (hr : r' = true → r = true) (hu : u = true → u' = true)
    (hF : ∀ a rest, F' a rest → F a rest) (hP : ∀ a, P a → P' a) : Confined tokens m H' r' u' F' P' p where
  moves := h.moves
  fails c s s' hs := h.fails c s s' ⟨Nat.lt_of_lt_of_le hs.bound hn, hs.within, hH _ hs.head⟩
  runs c s a s' hs hrun hclean := by
    obtain ⟨hp, ts, hcommon, hts⟩ := h.runs c s a s' ⟨Nat.lt_of_lt_of_le hs.bound hn, hs.within, hH _ hs.head⟩ hrun
      hclean
    exact ⟨hP a hp, ts, hcommon, hts.weaken hr hu (hF a)⟩

/-- The value has another property as well. -/
theorem imp (h : Confined tokens n H r u F P p) {P' : α → Prop} (hP : ∀ a, P a → P' a) :
    Confined tokens n H r u F P' p :=
  h.weaken (Nat.le_refl n) (fun _ hk => hk) id id (fun _ _ hF => hF) hP

theorem maybe (h : Confined tokens n H r u F P p) : Confined tokens n H false u F P p :=
  h.weaken (Nat.le_refl n) (fun _ hk => hk) nofun id (fun _ _ hF => hF) fun _ hp => hp

/-- A parser that does not look back may be run behind other tokens. -/
theorem behind (h : Confined tokens n H r false F P p) : Confined tokens n H r u F P p :=
  h.weaken (Nat.le_refl n) (fun _ hk => hk) id nofun (fun _ _ hF => hF) fun _ hp => hp

/-- The same where the next token does not matter. -/
theorem part (h : Confined tokens n any r false F P p) : Confined tokens n H r u F P p :=
  h.weaken (Nat.le_refl n) (fun _ _ => trivial) id nofun (fun _ _ hF => hF) fun _ hp => hp

/-- The same where fewer tokens are left. -/
theorem lower (h : Confined tokens (n + 1) H r u F P p) : Confined tokens n H r u F P p :=
  h.weaken (Nat.le_succ n) (fun _ hk => hk) id id (fun _ _ hF => hF) fun _ hp => hp

theorem anywhere (h : Confined tokens n any r u F P p) : Confined tokens n H r u F P p :=
  h.weaken (Nat.le_refl n) (fun _ _ => trivial) id id (fun _ _ hF => hF) fun _ hp => hp

/-- The same before fewer rests. -/
theorem narrow (h : Confined tokens n H r u F P p) {F' : α → List Token → Prop} (hF : ∀ a rest, F' a rest → F a rest) :
    Confined tokens n H r u F' P p :=
  h.weaken (Nat.le_refl n) (fun _ hk => hk) id id hF fun _ hp => hp

/-! ### Values and failure -/

theorem ret {a : α} (h : P a) : Confined tokens n H false u F P (pure a) where
  moves := .value a
  fails _ _ _ _ hrun := by cases hrun
  runs c s a' s' _ hrun _ := by
    obtain ⟨rfl, rfl⟩ := pure_eq_some.mp hrun
    exact ⟨h, [], nofun, .value a s⟩

/-- Nothing is to be shown of single runs if there are none. -/
theorem vacuous (hp : Moving p) : Confined tokens 0 H r u F P p where
  moves := hp
  fails _ _ _ hs := absurd hs.bound (Nat.not_lt_zero _)
  runs _ _ _ _ hs := absurd hs.bound (Nat.not_lt_zero _)

/-- Nothing is to be shown of runs that end with a diagnostic. -/
theorem dirty (hp : Moving p) (h : Complains p) :
    Confined tokens n H r u F P p where
  moves := hp
  fails c s s' _ hrun := by
    have hdirty := h c s
    rw [hrun] at hdirty
    exact hdirty
  runs c s a s' _ hrun hclean := by
    have hdirty := h c s
    rw [hrun] at hdirty
    exact absurd hclean hdirty

theorem failExpected (what : Expectation) : Confined tokens n H r u F P (failExpected what) :=
  .dirty (.failExpected what) (.failExpected what)

theorem reportFail (span : Span) (problem : SyntaxProblem) :
    Confined tokens n H r u F P (report span problem >>= fun _ => fail) :=
  .dirty (.bind (.report span problem) fun _ => .fail) (.bind (.report span problem) fun _ => .fail)

/-! ### Parsers in a row -/

theorem bind {f : α → Parser β} {F' : β → List Token → Prop} {Q : β → Prop} {q : Bool} (hp : Confined tokens n H r u F P p)
    (hf : ∀ a, Confined tokens m any q (u || r) F' (fun b => P a → Q b) (f a)) (hm : n ≤ m + r.toNat)
    (hF : Tail q F' F) : Confined tokens n H (r || q) u F' Q (p >>= f) :=
  ConfinedBy.bind hp hf hm hF fun _ _ => .append

end Confined

end Parser

end Bluespec
