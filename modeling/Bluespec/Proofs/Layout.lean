import Bluespec.Proofs.DeclarationNodes
import Bluespec.Proofs.StableSorting
import Bluespec.Proofs.TrackedUnits

/-!
# The outcome of parsing and the layout of the source

What a source unit is, and which problems it has, depends on the kinds and texts of the significant tokens only.
Two relocations show it.  One moves all offsets to the same place, so that what is left of the tree is its shape.
The other one moves each offset to the number of tokens that begin before it, which keeps the order of the
diagnostics.

* **`Token.words`** — what of a source does not depend on its layout.
* **`SourceUnit.shape`** — a source unit without its places.
* **`Parsed.problems`** — the problems of a source that are not about the text of one token, in order.
* **`shape_words`**, **`problems_words`** — both are functions of the words.
-/

namespace Bluespec

/-! ## Words -/

namespace Token

/-- The tokens of a source that the grammar reads. -/
def significant (source : String) : List Token := (ofText source).filter isSignificant

/-- The kinds and texts of the significant tokens of a source. -/
def words (source : String) : List (Kind × String) := (significant source).map fun t => (t.kind, t.text)

theorem ordered_significant (source : String) : Ordered (significant source) :=
  (ordered_of_tiles (tiles_ofText source)).filter isSignificant

theorem stop_le_of_tiles {start stop : Nat} {ts : List Token} (h : Tiles start ts stop) :
    start ≤ stop ∧ ∀ t ∈ ts, t.span.stop ≤ stop := by
  induction ts generalizing start with
  | nil => exact ⟨Nat.le_of_eq h, nofun⟩
  | cons t ts ih =>
    obtain ⟨hstart, -, hlt, hrest⟩ := h
    obtain ⟨hle, hall⟩ := ih hrest
    exact ⟨by omega, List.forall_mem_cons.mpr ⟨hle, hall⟩⟩

theorem stop_le_of_significant {source : String} {t : Token} (ht : t ∈ significant source) :
    t.span.stop ≤ Text.byteSize source.toList :=
  (stop_le_of_tiles (tiles_ofText source)).2 t (List.mem_filter.mp ht).1

end Token

/-- A source unit without its places. -/
def SourceUnit.shape (u : SourceUnit) : SourceUnit := u.move fun _ => 0

/-- The problems of a source that are not about the text of one token, in the order of their places. -/
def Parsed.problems (p : Parsed) : List Problem :=
  (p.diagnostics.filter fun d => !d.problem.isLexical).map Diagnostic.problem

open Bluespec.Parser

/-- A source is read as its significant tokens are at other places. -/
theorem alike_ofText (ℓ : Relocation) (source : String) (recovery : Recovery)
    (hstarts : ∀ t ∈ Token.significant source, ℓ.starts t.span.start)
    (hend : ℓ.starts (Text.byteSize source.toList)) :
    Alike ℓ (.ofText source recovery) (.ofText source) ⟨ℓ.move (Text.byteSize source.toList), recovery⟩
      (.start ((Token.significant source).map (Token.move ℓ.move))) where
  sourceEnd := rfl
  recovery := rfl
  consumed := rfl
  rest := rfl
  diagnostics := rfl
  ordered := Token.ordered_significant source
  inside _ ht := Token.stop_le_of_significant ht
  starts := hstarts
  startsEnd := hend
  lastEnd := Nat.zero_le (State.cursor _ _)
  behind _ hd := (List.not_mem_nil hd).elim
  inTurn := List.Pairwise.nil

/-- The tokens of a source are in order. -/
theorem alike_self (source : String) (recovery : Recovery) :
    Alike ⟨id, fun _ => True, id⟩ (.ofText source recovery) (.ofText source) (.ofText source recovery) (.ofText source) := by
  have halike := alike_ofText ⟨id, fun _ => True, id⟩ source recovery (fun _ _ => trivial) trivial
  have hsame : (Token.significant source).map (Token.move id) = Token.significant source := List.map_id _
  rw [hsame] at halike
  exact halike

/-- The run over a source, and the run over its tokens at other places. -/
theorem sourceUnit_move (ℓ : Relocation) (source : String) {recovery : Recovery}
    (hstarts : ∀ t ∈ Token.significant source, ℓ.starts t.span.start)
    (hend : ℓ.starts (Text.byteSize source.toList)) {ts : List Token}
    (hts : (Token.significant source).map (Token.move ℓ.move) = ts) :
    Option.map (SourceUnit.move ℓ.move) (sourceUnit (.ofText source recovery) (.ofText source)).1 =
        (sourceUnit ⟨ℓ.move (Text.byteSize source.toList), recovery⟩ (.start ts)).1 ∧
      Alike ℓ (.ofText source recovery) (sourceUnit (.ofText source recovery) (.ofText source)).2
        ⟨ℓ.move (Text.byteSize source.toList), recovery⟩
        (sourceUnit ⟨ℓ.move (Text.byteSize source.toList), recovery⟩ (.start ts)).2 := by
  subst hts
  obtain ⟨hr, halike, -⟩ := Tracks.sourceUnit _ _ _ _ (alike_ofText ℓ source recovery hstarts hend)
    (Nat.zero_le _)
  exact ⟨(Tracks.rel_by.mp hr).symm, halike⟩

/-! ## The shape of the tree -/

/-- All offsets at one place. -/
def Parser.Relocation.collapse : Relocation where
  move _ := 0
  starts _ := True
  mono _ := Nat.le_refl 0

theorem parse_root (source : String) :
    (parse source .collectAll).root =
      (sourceUnit (.ofText source .collectAll) (.ofText source)).1.getD (.items .empty) := by
  rw [parse, if_neg (by rintro ⟨⟨⟩, -⟩)]

/-- The shape of a source unit is a function of the words of the source. -/
theorem shape_words (source : String) :
    (parse source .collectAll).root.shape =
      (sourceUnit ⟨0, .collectAll⟩ (.start ((Token.words source).map fun w => ⟨w.1, w.2, ⟨0, 0⟩⟩))).1.getD
        (.items .empty) := by
  have htokens : (Token.significant source).map (Token.move Relocation.collapse.move) =
      (Token.words source).map fun w => ⟨w.1, w.2, ⟨0, 0⟩⟩ := by
    rw [Token.words, List.map_map]
    rfl
  obtain ⟨hr, -⟩ := sourceUnit_move .collapse source (fun _ _ => trivial) trivial htokens
  have hend : Relocation.collapse.move (Text.byteSize source.toList) = 0 := rfl
  rw [hend] at hr
  rw [parse_root, SourceUnit.shape, ← hr]
  cases (sourceUnit (.ofText source .collectAll) (.ofText source)).1 <;> rfl

/-! ## The order of the problems -/

/-- The number of tokens that begin before an offset. -/
def Token.rank (ts : List Token) (x : Nat) : Nat := ts.countP fun t => t.span.start < x

namespace Token

variable {ts : List Token} {x y : Nat}

theorem rank_le (ts : List Token) (h : x ≤ y) : rank ts x ≤ rank ts y :=
  List.countP_mono_left fun t _ ht => by
    simp only [decide_eq_true_eq] at ht ⊢
    omega

/-- An offset that stands before the start of a token ranks before an offset behind it. -/
theorem rank_lt {t : Token} (ht : t ∈ ts) (hx : x ≤ t.span.start) (hy : t.span.start < y) : rank ts x < rank ts y := by
  obtain ⟨before, after, rfl⟩ := List.append_of_mem ht
  have hbefore := rank_le before (Nat.le_of_lt (Nat.lt_of_le_of_lt hx hy))
  have hafter := rank_le after (Nat.le_of_lt (Nat.lt_of_le_of_lt hx hy))
  unfold rank at hbefore hafter ⊢
  rw [List.countP_append, List.countP_append, List.countP_cons_of_neg (by simpa using hx),
    List.countP_cons_of_pos (by simpa using hy)]
  omega

/-- Words as tokens that are numbered from `n` on. -/
def numbered (n : Nat) : List (Kind × String) → List Token
  | [] => []
  | w :: ws => ⟨w.1, w.2, ⟨n, n + 1⟩⟩ :: numbered (n + 1) ws

theorem rank_eq_length {before : List Token} (h : ∀ t ∈ before, t.span.start < x) {after : List Token}
    (hafter : ∀ t ∈ after, x ≤ t.span.start) : rank (before ++ after) x = before.length := by
  have hall : before.countP (fun t => t.span.start < x) = before.length :=
    List.countP_eq_length.mpr fun t ht => by simpa using h t ht
  have hnone : after.countP (fun t => t.span.start < x) = 0 :=
    List.countP_eq_zero.mpr fun t ht => by simpa using hafter t ht
  rw [rank, List.countP_append, hall, hnone, Nat.add_zero]

/-- Ordered tokens, each moved by the ranks of its ends, are their words numbered. -/
theorem map_rank (before after : List Token) (h : Ordered (before ++ after)) :
    after.map (Token.move (rank (before ++ after))) =
      numbered before.length (after.map fun t => (t.kind, t.text)) := by
  induction after generalizing before with
  | nil => rfl
  | cons t after ih =>
    have hcross := (List.pairwise_append.mp h.before).2.2
    have hright := h.right.before
    have hnonempty := h.nonempty
    have hstart : rank (before ++ t :: after) t.span.start = before.length := by
      refine rank_eq_length (fun a ha => ?_) (List.forall_mem_cons.mpr ⟨Nat.le_refl _, fun b hb => ?_⟩)
      · have := hcross a ha t List.mem_cons_self
        have := hnonempty a (List.mem_append_left _ ha)
        omega
      · have := List.rel_of_pairwise_cons hright hb
        have := hnonempty t (List.mem_append_right _ List.mem_cons_self)
        omega
    have happend : before ++ t :: after = (before ++ [t]) ++ after := by simp
    have hstop : rank (before ++ t :: after) t.span.stop = before.length + 1 := by
      rw [happend, rank_eq_length, List.length_append, List.length_singleton]
      · intro a ha
        rw [List.mem_append, List.mem_singleton] at ha
        obtain ha | rfl := ha
        · have := hcross a ha t List.mem_cons_self
          have := hnonempty a (List.mem_append_left _ ha)
          have := hnonempty t (List.mem_append_right _ List.mem_cons_self)
          omega
        · exact hnonempty a (List.mem_append_right _ List.mem_cons_self)
      · exact fun b hb => List.rel_of_pairwise_cons hright hb
    have hrest := ih (before ++ [t]) (happend ▸ h)
    rw [← happend, List.length_append, List.length_singleton] at hrest
    rw [List.map_cons, List.map_cons, numbered, hrest, Token.move, Span.move, hstart, hstop]

end Token

/-- Each offset at its rank. -/
def Parser.Relocation.ranking (source : String) : Relocation where
  move := Token.rank (Token.significant source)
  starts x := (∃ t ∈ Token.significant source, t.span.start = x) ∨ x = Text.byteSize source.toList
  mono := Token.rank_le _

/-- The diagnostics of a run over numbered words, in the order in which they were reported. -/
def reportedFor (ws : List (Kind × String)) : List Diagnostic :=
  (sourceUnit ⟨ws.length, .collectAll⟩ (.start (Token.numbered 0 ws))).2.diagnostics.reverse

theorem ranking_end (source : String) :
    (Relocation.ranking source).move (Text.byteSize source.toList) = (Token.words source).length := by
  have hbefore : ∀ t ∈ Token.significant source, t.span.start < Text.byteSize source.toList := by
    intro t ht
    have := (Token.ordered_significant source).nonempty t ht
    have := Token.stop_le_of_significant ht
    omega
  have hrank : Token.rank (Token.significant source ++ []) (Text.byteSize source.toList) = _ :=
    Token.rank_eq_length hbefore nofun
  rw [List.append_nil] at hrank
  rw [Token.words, List.length_map]
  exact hrank

/-- Where a diagnostic stands in turn, its rank compares with that of an earlier one as its place does. -/
theorem inTurn_ranking {source : String} {later earlier : Diagnostic}
    (hturn : (Relocation.ranking source).starts later.span.start ∨ earlier.span.start < later.span.start)
    (hend : earlier.span.start ≤ Text.byteSize source.toList) :
    earlier.span.start ≤ later.span.start ↔
      Token.rank (Token.significant source) earlier.span.start ≤
        Token.rank (Token.significant source) later.span.start := by
  refine ⟨Token.rank_le _, fun hrank => ?_⟩
  by_contra hlt
  obtain (⟨t, ht, hstart⟩ | hstart) | hbefore := hturn
  · have := Token.rank_lt ht (Nat.le_of_eq hstart.symm) (hstart ▸ Nat.lt_of_not_le hlt)
    omega
  · omega
  · omega

theorem Parser.Alike.cursor_le_end {ℓ : Relocation} {c c' : Setting} {s s' : State} (h : Alike ℓ c s c' s') :
    s.cursor c ≤ c.sourceEnd := by
  cases hrest : s.rest with
  | nil =>
    rw [State.cursor, State.peekSpan, hrest]
    exact Nat.le_refl _
  | cons t ts =>
    have ht : t ∈ s.rest := hrest ▸ List.mem_cons_self
    have := h.inside t ht
    have := h.ordered.nonempty t ht
    have hhere : s.cursor c = t.span.start := by rw [State.cursor, State.peekSpan, hrest]; rfl
    omega

theorem Diagnostic.sortByStart_filter (p : Diagnostic → Bool) (ds : List Diagnostic) :
    (sortByStart ds).filter p = sortByStart (ds.filter p) :=
  filter_mergeSort (fun a b c hab hbc => by
      rw [decide_eq_true_eq] at hab hbc ⊢
      omega) (fun a b => by
      rw [Bool.or_eq_true, decide_eq_true_eq, decide_eq_true_eq]
      exact Nat.le_total _ _) p ds

/-- The diagnostics of the run over a source, in the order in which they were reported. -/
def reported (source : String) : List Diagnostic :=
  (sourceUnit (.ofText source .collectAll) (.ofText source)).2.diagnostics.reverse

/-- The problems of a source are a function of its words. -/
theorem problems_words (source : String) :
    (parse source .collectAll).problems =
      (Diagnostic.sortByStart ((reportedFor (Token.words source)).filter fun d => !d.problem.isLexical)).map
        Diagnostic.problem := by
  have htokens : (Token.significant source).map (Token.move (Relocation.ranking source).move) =
      Token.numbered 0 (Token.words source) := Token.map_rank [] _ (Token.ordered_significant source)
  obtain ⟨-, halike⟩ := sourceUnit_move (.ranking source) source (fun t ht => .inl ⟨t, ht, rfl⟩)
    (.inr rfl) htokens
  rw [ranking_end] at halike
  have hreported : reportedFor (Token.words source) =
      (reported source).map (Diagnostic.move (Relocation.ranking source).move) := by
    rw [reportedFor, halike.diagnostics, reported, List.map_reverse]
  have hinTurn : (reported source).Pairwise fun a b => decide (a.span.start ≤ b.span.start) =
      decide ((a.move (Relocation.ranking source).move).span.start ≤
        (b.move (Relocation.ranking source).move).span.start) := by
    refine List.pairwise_reverse.mpr (halike.inTurn.imp_of_mem fun {later earlier} _ hearlier hturn => ?_)
    refine decide_eq_decide.mpr (inTurn_ranking hturn ?_)
    exact Nat.le_trans (halike.behind earlier hearlier) halike.cursor_le_end
  have hlexical : ((LexicalError.ofText source).map Diagnostic.ofLexicalError).filter
      (fun d => !d.problem.isLexical) = [] := by
    refine List.filter_eq_nil_iff.mpr fun d hd => ?_
    obtain ⟨e, -, rfl⟩ := List.mem_map.mp hd
    exact nofun
  have hsorted : (Diagnostic.sortByStart ((reported source).filter fun d => !d.problem.isLexical)).map
      (Diagnostic.move (Relocation.ranking source).move) =
        Diagnostic.sortByStart (((reported source).filter fun d => !d.problem.isLexical).map
          (Diagnostic.move (Relocation.ranking source).move)) :=
    mergeSort_map _ (hinTurn.filter fun d => !d.problem.isLexical)
  have hfilter : ((reported source).map (Diagnostic.move (Relocation.ranking source).move)).filter
      (fun d => !d.problem.isLexical) = ((reported source).filter fun d => !d.problem.isLexical).map
        (Diagnostic.move (Relocation.ranking source).move) := List.filter_map
  calc (parse source .collectAll).problems
      = ((Diagnostic.sortByStart ((LexicalError.ofText source).map Diagnostic.ofLexicalError ++ reported source)).filter
          fun d => !d.problem.isLexical).map Diagnostic.problem := by
        rw [Parsed.problems, parse, if_neg (by rintro ⟨⟨⟩, -⟩)]
        rfl
    _ = (Diagnostic.sortByStart ((reported source).filter fun d => !d.problem.isLexical)).map Diagnostic.problem := by
        rw [Diagnostic.sortByStart_filter, List.filter_append, hlexical, List.nil_append]
    _ = ((Diagnostic.sortByStart ((reported source).filter fun d => !d.problem.isLexical)).map
          (Diagnostic.move (Relocation.ranking source).move)).map Diagnostic.problem := by
        rw [List.map_map]
        rfl
    _ = _ := by
        rw [hsorted, hreported, hfilter]

end Bluespec
