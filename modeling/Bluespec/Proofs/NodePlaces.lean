import Bluespec.Proofs.RecordedDeclarations
import Bluespec.Proofs.Scanning
import Bluespec.Proofs.TreeBuilding

/-!
# Where the nodes of a concrete tree stand

Declarations that reach from token to token, of which no two overlap without one lying in the other, each get one
node, and that node holds exactly the text between their ends.

* **`Placed.declaration?`** — the declaration that a node of a tree is for.
* **`Builder.Stands`**, **`Builder.Building`** — which declarations the unfinished nodes of a builder are for, and
  what holds between tokens.
* **`declarations_ofTokens`** — the nodes of a tree over tokens are those of the declarations.
* **`inside_of_within_nodesIn`**, **`within_of_inside`** — one node is inside another one exactly where its text is.
-/

namespace Bluespec

namespace Concrete

/-- The declaration that a node is for, if it is for one. -/
def Placed.declaration? (p : Placed) : Option NodeSpan :=
  match p.tree.kind with
  | .node kind => some ⟨kind, p.span⟩
  | _ => none

/-! ## The order in which nodes are opened -/

/-- Two declarations in the order in which they are opened: the second lies behind the first, or in it. -/
def Follows (a b : NodeSpan) : Prop :=
  a.span.start < b.span.start ∧ (a.span.stop ≤ b.span.start ∨ b.span.stop ≤ a.span.stop)

/-- Declarations that are recorded in order are opened in order. -/
theorem follows_openingOrder {ns : List NodeSpan} (hordered : ns.Pairwise NodeSpan.Precedes)
    (hnonempty : ∀ n ∈ ns, n.span.start < n.span.stop) : (openingOrder ns).Pairwise Follows := by
  have htrans : ∀ a b c, opensBefore a b → opensBefore b c → opensBefore a c := by
    intro a b c hab hbc
    simp only [opensBefore, Bool.or_eq_true, Bool.and_eq_true, decide_eq_true_eq, beq_iff_eq] at hab hbc ⊢
    omega
  have htotal : ∀ a b, (opensBefore a b || opensBefore b a) = true := by
    intro a b
    simp only [opensBefore, Bool.or_eq_true, Bool.and_eq_true, decide_eq_true_eq, beq_iff_eq]
    omega
  have hsorted : (openingOrder ns).Pairwise fun a b => opensBefore a b = true :=
    List.pairwise_mergeSort htrans htotal ns
  have happart : (openingOrder ns).Pairwise fun a b => a.Precedes b ∨ b.Precedes a := by
    have hperm : (openingOrder ns).Perm ns := List.mergeSort_perm ns opensBefore
    rw [hperm.pairwise_iff fun h => h.symm]
    exact hordered.imp Or.inl
  have hboth := hsorted.and happart
  refine hboth.imp_of_mem fun {a b} ha hb h => ?_
  have hpos : ∀ n ∈ openingOrder ns, n.span.start < n.span.stop :=
    fun n hn => hnonempty n (List.mem_mergeSort.mp hn)
  have ha := hpos a ha
  have hb := hpos b hb
  obtain ⟨hopens, happart⟩ := h
  simp only [opensBefore, Bool.or_eq_true, Bool.and_eq_true, decide_eq_true_eq, beq_iff_eq] at hopens
  unfold NodeSpan.Precedes at happart
  unfold Follows
  omega

namespace Builder

/-! ## Unfinished nodes -/

/-- The frames of a builder are the unfinished nodes of declarations: their kinds, their ends, and the offsets
at which their text starts. -/
def Stands (root : List Concrete) : List Frame → List NodeSpan → Prop
  | [], [] => True
  | f :: fs, n :: ns =>
    f.kind = n.kind ∧ f.stop = n.span.stop ∧ Text.byteSize (textOf root fs) = n.span.start ∧ Stands root fs ns
  | _, _ => False

/-- What holds of a builder before the tokens that are left: the declarations that are open, from the inside to
the outside, and the declarations of the whole tree. -/
structure Building (b : Builder) (ts : List Token) (opened all : List NodeSpan) : Prop where
  stands : Stands b.children b.frames opened
  nested : opened.Pairwise fun inner outer => inner.span.stop ≤ outer.span.stop
  ends : ∀ n ∈ opened, n.span.stop = Text.byteSize b.text ∨ ∃ t ∈ ts, t.span.stop = n.span.stop
  pending : ∀ n ∈ b.pending, n.Over ts
  follows : b.pending.Pairwise Follows
  inside : ∀ n ∈ opened, ∀ m ∈ b.pending, n.span.stop ≤ m.span.start ∨ m.span.stop ≤ n.span.stop
  counted : (b.nodes.filterMap Placed.declaration? ++ opened ++ b.pending).Perm all

variable {b : Builder} {ts : List Token} {opened all : List NodeSpan}

/-- A node that is finished where its declaration ends is for that declaration. -/
theorem declaration_closedAt {parts : List Concrete} {f : Frame} {fs : List Frame} {n : NodeSpan}
    (hkind : f.kind = n.kind) (hstart : Text.byteSize (textOf b.children fs) = n.span.start)
    (hstop : n.span.stop = Text.byteSize (b.holding parts (f :: fs)).text) :
    (b.closedAt parts f fs).declaration? = some n := by
  have htext := text_close b parts f fs
  rw [text_holding, List.reverse_singleton, texts_singleton] at htext
  have hend : n.span.start + (f.add parts).close.byteSize = n.span.stop := by
    rw [hstop, ← htext, Text.byteSize_append, hstart]
    rfl
  show some (NodeSpan.mk f.kind ⟨Text.byteSize (textOf b.children fs),
    Text.byteSize (textOf b.children fs) + (f.add parts).close.byteSize⟩) = some n
  rw [hkind, hstart, hend]

/-- Before a token, the nodes that end there are finished, and no others. -/
theorem stands_closeUntil {offset : Nat} {parts : List Concrete} {fs : List Frame} (hstands : Stands b.children fs opened)
    (hnested : opened.Pairwise fun inner outer => inner.span.stop ≤ outer.span.stop)
    (hends : ∀ n ∈ opened, offset ≤ n.span.stop) (hoffset : Text.byteSize (b.holding parts fs).text = offset) :
    ∃ done remaining, opened = done ++ remaining ∧
      (closed offset b parts fs).filterMap Placed.declaration? = done ∧
      Stands (closeUntil offset b parts fs).children (closeUntil offset b parts fs).frames remaining ∧
      ∀ n ∈ remaining, offset < n.span.stop := by
  induction fs generalizing parts opened with
  | nil =>
    cases opened with
    | nil => exact ⟨[], [], rfl, rfl, trivial, nofun⟩
    | cons n ns => exact hstands.elim
  | cons f fs ih =>
    cases opened with
    | nil => exact hstands.elim
    | cons n ns =>
      obtain ⟨hkind, hstop, hstart, hrest⟩ := hstands
      have hn := hends n List.mem_cons_self
      by_cases hclose : f.stop ≤ offset
      · have hdeclaration : (b.closedAt parts f fs).declaration? = some n := by
          refine declaration_closedAt hkind hstart ?_
          rw [hoffset]
          omega
        have hnext : Text.byteSize (b.holding [(f.add parts).close] fs).text = offset := by
          rw [text_close, hoffset]
        obtain ⟨done, remaining, hsplit, hdone, hremaining, hlater⟩ :=
          ih hrest hnested.of_cons (fun m hm => hends m (List.mem_cons_of_mem _ hm)) hnext
        refine ⟨n :: done, remaining, by rw [hsplit]; rfl, ?_, ?_, hlater⟩
        · rw [closed, if_pos hclose, List.filterMap_cons_some hdeclaration, hdone]
        · rw [closeUntil_of_le hclose]
          exact hremaining
      · refine ⟨[], n :: ns, rfl, by rw [closed, if_neg hclose]; rfl, ?_, fun m hm => ?_⟩
        · rw [closeUntil_of_lt hclose]
          exact ⟨hkind, hstop, hstart, hrest⟩
        · cases hm with
          | head => omega
          | tail _ hm =>
            have hle : n.span.stop ≤ m.span.stop := List.rel_of_pairwise_cons hnested hm
            omega

theorem Building.close {stop : Nat} (h : Building b ts opened all) (htiles : Tiles (Text.byteSize b.text) ts stop) :
    ∃ remaining, Building (closeUntil (Text.byteSize b.text) b [] b.frames) ts remaining all ∧
      ∀ n ∈ remaining, Text.byteSize b.text < n.span.stop := by
  have hends : ∀ n ∈ opened, Text.byteSize b.text ≤ n.span.stop := by
    intro n hn
    rcases h.ends n hn with heq | ⟨t, ht, heq⟩
    · exact Nat.le_of_eq heq.symm
    · have hbounds := htiles.bounds_of_mem ht
      omega
  have hoffset : Text.byteSize (b.holding [] b.frames).text = Text.byteSize b.text := by rw [holding_nil]
  obtain ⟨done, remaining, hsplit, hdone, hstands, hlater⟩ := stands_closeUntil h.stands h.nested hends hoffset
  have hmem : ∀ n ∈ remaining, n ∈ opened := fun n hn => hsplit ▸ List.mem_append_right _ hn
  have htext : (closeUntil (Text.byteSize b.text) b [] b.frames).text = b.text := by
    rw [text_closeUntil, holding_nil]
  have hpending : (closeUntil (Text.byteSize b.text) b [] b.frames).pending = b.pending := pending_closeUntil _ _ _ _
  refine ⟨remaining, ⟨hstands, ?_, ?_, ?_, ?_, ?_, ?_⟩, hlater⟩
  · exact (List.pairwise_append.mp (hsplit ▸ h.nested)).2.1
  · rw [htext]
    exact fun n hn => h.ends n (hmem n hn)
  · rw [hpending]
    exact h.pending
  · rw [hpending]
    exact h.follows
  · rw [hpending]
    exact fun n hn => h.inside n (hmem n hn)
  · rw [hpending, nodes_closeUntil, holding_nil, List.filterMap_append, hdone]
    have hcounted := h.counted
    rw [hsplit, ← List.append_assoc] at hcounted
    exact hcounted

/-- Opening the declarations that start at an offset. -/
theorem stands_openUntil {offset : Nat} {ns : List NodeSpan} (hstands : Stands b.children b.frames opened)
    (hnested : opened.Pairwise fun inner outer => inner.span.stop ≤ outer.span.stop)
    (hlater : ∀ n ∈ opened, offset < n.span.stop) (hoffset : Text.byteSize b.text = offset)
    (hns : ∀ n ∈ ns, offset ≤ n.span.start ∧ n.span.start < n.span.stop) (hfollows : ns.Pairwise Follows)
    (hinside : ∀ n ∈ opened, ∀ m ∈ ns, n.span.stop ≤ m.span.start ∨ m.span.stop ≤ n.span.stop) :
    ∃ new rest, ns = new ++ rest ∧
      Stands (openUntil offset b ns).children (openUntil offset b ns).frames (new.reverse ++ opened) ∧
      (openUntil offset b ns).pending = rest ∧
      ((new.reverse ++ opened).Pairwise fun inner outer => inner.span.stop ≤ outer.span.stop) ∧
      (∀ n ∈ new.reverse ++ opened, offset < n.span.stop) ∧ (∀ n ∈ rest, offset < n.span.start) ∧
      ∀ n ∈ new.reverse ++ opened, ∀ m ∈ rest, n.span.stop ≤ m.span.start ∨ m.span.stop ≤ n.span.stop := by
  induction ns generalizing b opened with
  | nil => exact ⟨[], [], rfl, hstands, rfl, hnested, hlater, nofun, fun _ _ => nofun⟩
  | cons n ns ih =>
    obtain ⟨hle, hpos⟩ := hns n List.mem_cons_self
    by_cases hstart : n.span.start ≤ offset
    · have hstop : ¬n.span.stop ≤ offset := by omega
      have hopen : openUntil offset b (n :: ns) =
          openUntil offset { b with frames := ⟨n.kind, n.span.stop, []⟩ :: b.frames } ns := by
        rw [openUntil, if_pos hstart, if_neg hstop]
      have hbelow : ∀ m ∈ opened, n.span.stop ≤ m.span.stop := by
        intro m hm
        have hm' := hlater m hm
        rcases hinside m hm n List.mem_cons_self with h | h
        · omega
        · exact h
      have hopened : Stands b.children (⟨n.kind, n.span.stop, []⟩ :: b.frames) (n :: opened) :=
        ⟨rfl, rfl, hoffset.trans (Nat.le_antisymm hle hstart), hstands⟩
      have htext : Text.byteSize (Builder.text { b with frames := ⟨n.kind, n.span.stop, []⟩ :: b.frames }) = offset := by
        show Text.byteSize (b.text ++ []) = offset
        rw [List.append_nil, hoffset]
      have hwithin : ∀ m ∈ n :: opened, ∀ k ∈ ns, m.span.stop ≤ k.span.start ∨ k.span.stop ≤ m.span.stop := by
        intro m hm k hk
        cases hm with
        | head =>
          have hfollow : Follows n k := List.rel_of_pairwise_cons hfollows hk
          exact hfollow.2
        | tail _ hm => exact hinside m hm k (List.mem_cons_of_mem _ hk)
      obtain ⟨new, rest, hsplit, hrest⟩ := ih hopened (List.pairwise_cons.mpr ⟨hbelow, hnested⟩)
        (List.forall_mem_cons.mpr ⟨Nat.lt_of_not_le hstop, hlater⟩) htext
        (fun m hm => hns m (List.mem_cons_of_mem _ hm)) hfollows.of_cons hwithin
      refine ⟨n :: new, rest, by rw [hsplit]; rfl, ?_⟩
      rw [hopen, List.reverse_cons, List.append_assoc]
      exact hrest
    · have hlt : ∀ m ∈ n :: ns, offset < m.span.start := by
        intro m hm
        cases hm with
        | head => omega
        | tail _ hm =>
          have hfollow : Follows n m := List.rel_of_pairwise_cons hfollows hm
          have hbefore := hfollow.1
          omega
      have hopen : openUntil offset b (n :: ns) = { b with pending := n :: ns } := by
        rw [openUntil, if_neg hstart]
      refine ⟨[], n :: ns, rfl, ?_⟩
      rw [hopen]
      exact ⟨hstands, rfl, hnested, hlater, hlt, hinside⟩

theorem Stands.push (part : Concrete) (h : Stands b.children b.frames opened) :
    Stands (b.push part).children (b.push part).frames opened := by
  obtain ⟨frames, children, pending⟩ := b
  cases frames with
  | nil =>
    cases opened with
    | nil => exact trivial
    | cons n ns => exact h.elim
  | cons f fs =>
    cases opened with
    | nil => exact h.elim
    | cons n ns => exact h

theorem pending_push (part : Concrete) : (b.push part).pending = b.pending := by
  rw [push_eq_holding]
  cases b.frames <;> rfl

/-- No part of a token is a node of a declaration. -/
theorem declarations_partOf (t : Token) (offset : Nat) :
    ((partOf t).nodesAt offset).filterMap Placed.declaration? = [] := by
  unfold partOf
  split <;> rfl

/-- A declaration over tokens that does not start with the first of them lies over the others. -/
theorem over_tail {t : Token} {n : NodeSpan} {stop : Nat} (htiles : Tiles t.span.start (t :: ts) stop)
    (h : n.Over (t :: ts)) (hlt : t.span.start < n.span.start) : n.Over ts := by
  obtain ⟨a, ha, d, hd, hspan, hpos⟩ := h
  rw [hspan] at hlt
  cases ha with
  | head => exact absurd hlt (Nat.lt_irrefl _)
  | tail _ ha =>
    have hafter := htiles.2.2.2.bounds_of_mem ha
    cases hd with
    | head => omega
    | tail _ hd => exact ⟨a, ha, d, hd, hspan, hpos⟩

/-- Adding a token that stands where the text of the builder ends. -/
theorem Building.addToken {t : Token} {stop : Nat} (h : Building b (t :: ts) opened all)
    (htiles : Tiles (Text.byteSize b.text) (t :: ts) stop) :
    ∃ opened', Building (b.addToken t) ts opened' all := by
  have hstart : t.span.start = Text.byteSize b.text := htiles.1
  obtain ⟨remaining, hclosed, hlater⟩ := h.close htiles
  rw [← hstart] at hclosed htiles hlater
  have htext : (closeUntil t.span.start b [] b.frames).text = b.text := by rw [text_closeUntil, holding_nil]
  have hns : ∀ n ∈ (closeUntil t.span.start b [] b.frames).pending,
      t.span.start ≤ n.span.start ∧ n.span.start < n.span.stop := by
    intro n hn
    obtain ⟨a, ha, d, hd, hspan, hpos⟩ := hclosed.pending n hn
    rw [hspan]
    exact ⟨(htiles.bounds_of_mem ha).1, hpos⟩
  obtain ⟨new, rest, hsplit, hstands, hpending, hnested, hopen, hrest, hinside⟩ :=
    stands_openUntil hclosed.stands hclosed.nested hlater (by rw [htext, hstart]) hns hclosed.follows hclosed.inside
  have hover : ∀ n ∈ new ++ rest, n.Over (t :: ts) := fun n hn => hclosed.pending n (hsplit ▸ hn)
  have hends : ∀ n ∈ new.reverse ++ remaining, ∃ t' ∈ t :: ts, t'.span.stop = n.span.stop := by
    intro n hn
    rcases List.mem_append.mp hn with hn | hn
    · obtain ⟨_, -, d, hd, hspan, -⟩ := hover n (List.mem_append_left _ (List.mem_reverse.mp hn))
      exact ⟨d, hd, by rw [hspan]⟩
    · rcases hclosed.ends n hn with heq | hlast
      · have hlt := hlater n hn
        rw [heq, htext, hstart] at hlt
        exact absurd hlt (Nat.lt_irrefl _)
      · exact hlast
  refine ⟨new.reverse ++ remaining, hstands.push _, hnested, fun n hn => ?_, ?_, ?_, ?_, ?_⟩
  · rw [text_addToken, Text.byteSize_append, ← hstart, ← htiles.2.1]
    obtain ⟨t', ht', heq⟩ := hends n hn
    cases ht' with
    | head => exact .inl heq.symm
    | tail _ ht' => exact .inr ⟨t', ht', heq⟩
  · rw [Builder.addToken, pending_push, hpending]
    exact fun n hn => over_tail htiles (hover n (List.mem_append_right _ hn)) (hrest n hn)
  · rw [Builder.addToken, pending_push, hpending]
    exact (List.pairwise_append.mp (hsplit ▸ hclosed.follows)).2.1
  · rw [Builder.addToken, pending_push, hpending]
    exact hinside
  · have hcounted := hclosed.counted
    rw [hsplit] at hcounted
    rw [Builder.addToken, pending_push, hpending, nodes_push, nodes_openUntil, List.filterMap_append,
      declarations_partOf, List.append_nil]
    refine .trans ?_ hcounted
    simp only [List.append_assoc]
    refine .append_left _ ?_
    rw [← List.append_assoc, ← List.append_assoc]
    exact (((List.reverse_perm new).append_right remaining).trans List.perm_append_comm).append_right rest

/-! ## All tokens -/

theorem Building.foldl {stop : Nat} (h : Building b ts opened all) (htiles : Tiles (Text.byteSize b.text) ts stop) :
    ∃ opened', Building (ts.foldl Builder.addToken b) [] opened' all := by
  induction ts generalizing b opened with
  | nil => exact ⟨opened, h⟩
  | cons t ts ih =>
    obtain ⟨opened', hadded⟩ := h.addToken htiles
    refine ih hadded ?_
    rw [text_addToken, Text.byteSize_append, ← htiles.2.1]
    exact htiles.2.2.2

theorem declarations_left {parts : List Concrete} {fs : List Frame} (hstands : Stands b.children fs opened)
    (hends : ∀ n ∈ opened, n.span.stop = Text.byteSize (b.holding parts fs).text) :
    (left b parts fs).filterMap Placed.declaration? = opened := by
  induction fs generalizing parts opened with
  | nil =>
    cases opened with
    | nil => rfl
    | cons n ns => exact hstands.elim
  | cons f fs ih =>
    cases opened with
    | nil => exact hstands.elim
    | cons n ns =>
      obtain ⟨hkind, -, hstart, hrest⟩ := hstands
      have hdeclaration := declaration_closedAt hkind hstart (hends n List.mem_cons_self)
      rw [left, List.filterMap_cons_some hdeclaration, ih hrest fun m hm => ?_]
      rw [text_close]
      exact hends m (List.mem_cons_of_mem _ hm)

end Builder

/-- The nodes of a tree over tokens that are no errors are those of the declarations. -/
theorem declarations_ofTokens {tokens : List Token} {stop : Nat} (htiles : Tiles 0 tokens stop)
    {ns : List NodeSpan} (hover : ∀ n ∈ ns, n.Over tokens) (hordered : ns.Pairwise NodeSpan.Precedes) :
    ((nodesIn 0 (ofTokens tokens ns).children).filterMap Placed.declaration?).Perm ns := by
  have hperm : (openingOrder ns).Perm ns := List.mergeSort_perm ns opensBefore
  have hstart : Builder.Building ⟨[], [], openingOrder ns⟩ tokens [] ns := by
    refine ⟨trivial, .nil, nofun, fun n hn => hover n (hperm.mem_iff.mp hn), ?_, nofun, hperm⟩
    exact follows_openingOrder hordered fun n hn => (hover n hn).nonempty
  obtain ⟨opened, hbuilt⟩ := hstart.foldl htiles
  have hends : ∀ n ∈ opened, n.span.stop = Text.byteSize (built tokens ns).text := by
    intro n hn
    rcases hbuilt.ends n hn with heq | ⟨t, ht, -⟩
    · exact heq
    · cases ht
  have hpending : (built tokens ns).pending = [] := by
    rw [List.eq_nil_iff_forall_not_mem]
    intro n hn
    obtain ⟨a, ha, -⟩ := hbuilt.pending n hn
    cases ha
  have hleft : ((built tokens ns).left [] (built tokens ns).frames).filterMap Placed.declaration? = opened :=
    Builder.declarations_left hbuilt.stands (by rw [Builder.holding_nil]; exact hends)
  have hcounted : ((built tokens ns).nodes.filterMap Placed.declaration? ++ opened ++ (built tokens ns).pending).Perm ns :=
    hbuilt.counted
  rw [hpending, List.append_nil] at hcounted
  rw [nodesIn_ofTokens, List.filterMap_append, hleft]
  exact hcounted

/-! ## Texts and nesting -/

/-- The nodes below the root of a tree that starts a source. -/
def innerNodes (t : Concrete) : List Placed := nodesIn 0 t.children

/-- The nodes inside a node. -/
def Placed.inside (p : Placed) : List Placed := nodesIn p.start p.tree.children

mutual

/-- The text of a node stands in the text of the tree, at the place of the node. -/
theorem text_of_mem_nodesAt {offset : Nat} {t : Concrete} {p : Placed} (h : p ∈ nodesAt offset t) :
    ∃ pre post, t.text = pre ++ p.tree.text ++ post ∧ p.start = offset + Text.byteSize pre := by
  cases t with
  | leaf k text => cases h
  | node k cs =>
    rw [nodesAt] at h
    rcases List.mem_append.mp h with h | h
    · rw [text_node]
      exact text_of_mem_nodesIn h
    · cases List.mem_singleton.mp h
      exact ⟨[], [], (List.append_nil _).symm, rfl⟩

theorem text_of_mem_nodesIn {offset : Nat} {cs : List Concrete} {p : Placed} (h : p ∈ nodesIn offset cs) :
    ∃ pre post, texts cs = pre ++ p.tree.text ++ post ∧ p.start = offset + Text.byteSize pre := by
  cases cs with
  | nil => cases h
  | cons t ts =>
    rw [nodesIn] at h
    rcases List.mem_append.mp h with h | h
    · obtain ⟨pre, post, htext, hstart⟩ := text_of_mem_nodesAt h
      refine ⟨pre, post ++ texts ts, ?_, hstart⟩
      rw [texts, htext, List.append_assoc]
    · obtain ⟨pre, post, htext, hstart⟩ := text_of_mem_nodesIn h
      refine ⟨t.text ++ pre, post, ?_, ?_⟩
      · rw [texts, htext, List.append_assoc, List.append_assoc, List.append_assoc]
      · rw [hstart, Text.byteSize_append, Nat.add_assoc]
        rfl

end

theorem bounds_of_mem_nodesAt {offset : Nat} {t : Concrete} {p : Placed} (h : p ∈ nodesAt offset t) :
    offset ≤ p.span.start ∧ p.span.stop ≤ offset + t.byteSize := by
  obtain ⟨pre, post, htext, hstart⟩ := text_of_mem_nodesAt h
  have hsize : t.byteSize = Text.byteSize pre + p.tree.byteSize + Text.byteSize post := by
    rw [byteSize, htext, Text.byteSize_append, Text.byteSize_append]
    rfl
  show offset ≤ p.start ∧ p.start + p.tree.byteSize ≤ offset + t.byteSize
  omega

theorem bounds_of_mem_nodesIn {offset : Nat} {cs : List Concrete} {p : Placed} (h : p ∈ nodesIn offset cs) :
    offset ≤ p.span.start ∧ p.span.stop ≤ offset + Text.byteSize (texts cs) := by
  obtain ⟨pre, post, htext, hstart⟩ := text_of_mem_nodesIn h
  have hsize : Text.byteSize (texts cs) = Text.byteSize pre + p.tree.byteSize + Text.byteSize post := by
    rw [htext, Text.byteSize_append, Text.byteSize_append]
    rfl
  show offset ≤ p.start ∧ p.start + p.tree.byteSize ≤ offset + Text.byteSize (texts cs)
  omega

/-- A span lies in another one. -/
def Within (inner outer : Span) : Prop := outer.start ≤ inner.start ∧ inner.stop ≤ outer.stop

theorem Within.antisymm {a b : Span} (h : Within a b) (h' : Within b a) : a = b := by
  obtain ⟨astart, astop⟩ := a
  have hstart := Nat.le_antisymm h'.1 h.1
  have hstop := Nat.le_antisymm h.2 h'.2
  dsimp only at hstart hstop
  rw [hstart, hstop]

mutual

/-- A node whose text lies in the text of another one is inside it. -/
theorem inside_of_within_nodesAt {offset : Nat} {t : Concrete} {p q : Placed} (hp : p ∈ nodesAt offset t)
    (hq : q ∈ nodesAt offset t) (hpos : q.span.start < q.span.stop) (hwithin : Within q.span p.span)
    (hne : q.span ≠ p.span) : q ∈ p.inside := by
  cases t with
  | leaf k text => cases hp
  | node k cs =>
    rw [nodesAt] at hp hq
    rcases List.mem_append.mp hp with hp | hp
    · rcases List.mem_append.mp hq with hq | hq
      · exact inside_of_within_nodesIn hp hq hpos hwithin hne
      · cases List.mem_singleton.mp hq
        have hsize : (Placed.mk offset (node k cs)).span = ⟨offset, offset + Text.byteSize (texts cs)⟩ := by
          rw [Placed.span, byteSize, text_node]
        have hback : Within p.span (Placed.mk offset (node k cs)).span := by
          rw [hsize]
          exact bounds_of_mem_nodesIn hp
        exact absurd (hwithin.antisymm hback) hne
    · cases List.mem_singleton.mp hp
      rcases List.mem_append.mp hq with hq | hq
      · exact hq
      · cases List.mem_singleton.mp hq
        exact absurd rfl hne

theorem inside_of_within_nodesIn {offset : Nat} {cs : List Concrete} {p q : Placed} (hp : p ∈ nodesIn offset cs)
    (hq : q ∈ nodesIn offset cs) (hpos : q.span.start < q.span.stop) (hwithin : Within q.span p.span)
    (hne : q.span ≠ p.span) : q ∈ p.inside := by
  cases cs with
  | nil => cases hp
  | cons t ts =>
    obtain ⟨hstart, hstop⟩ := hwithin
    rw [nodesIn] at hp hq
    rcases List.mem_append.mp hp with hp | hp
    · rcases List.mem_append.mp hq with hq | hq
      · exact inside_of_within_nodesAt hp hq hpos ⟨hstart, hstop⟩ hne
      · have hpbounds := bounds_of_mem_nodesAt hp
        have hqbounds := bounds_of_mem_nodesIn hq
        omega
    · rcases List.mem_append.mp hq with hq | hq
      · have hpbounds := bounds_of_mem_nodesIn hp
        have hqbounds := bounds_of_mem_nodesAt hq
        omega
      · exact inside_of_within_nodesIn hp hq hpos ⟨hstart, hstop⟩ hne

end

theorem within_of_inside {p q : Placed} (h : q ∈ p.inside) : Within q.span p.span := by
  have hbounds := bounds_of_mem_nodesIn h
  cases hp : p.tree with
  | leaf k text =>
    rw [Placed.inside, hp] at h
    cases h
  | node k cs =>
    refine ⟨hbounds.1, ?_⟩
    have hsize : p.span.stop = p.start + Text.byteSize (texts p.tree.children) := by
      rw [Placed.span, hp, byteSize, text_node]
      rfl
    rw [hsize]
    exact hbounds.2

mutual

theorem sizeOf_le_of_mem_nodesAt {offset : Nat} {t : Concrete} {p : Placed} (h : p ∈ nodesAt offset t) :
    sizeOf p.tree ≤ sizeOf t := by
  cases t with
  | leaf k text => cases h
  | node k cs =>
    rw [nodesAt] at h
    rcases List.mem_append.mp h with h | h
    · have hlt := sizeOf_lt_of_mem_nodesIn h
      rw [node.sizeOf_spec]
      omega
    · cases List.mem_singleton.mp h
      exact Nat.le_refl _

theorem sizeOf_lt_of_mem_nodesIn {offset : Nat} {cs : List Concrete} {p : Placed} (h : p ∈ nodesIn offset cs) :
    sizeOf p.tree < sizeOf cs := by
  cases cs with
  | nil => cases h
  | cons t ts =>
    rw [nodesIn] at h
    rw [List.cons.sizeOf_spec]
    rcases List.mem_append.mp h with h | h
    · have hle := sizeOf_le_of_mem_nodesAt h
      omega
    · have hlt := sizeOf_lt_of_mem_nodesIn h
      omega

end

/-- No node is inside itself. -/
theorem not_mem_inside (p : Placed) : p ∉ p.inside := by
  intro h
  have hlt := sizeOf_lt_of_mem_nodesIn h
  cases hp : p.tree with
  | leaf k text =>
    rw [Placed.inside, hp] at h
    cases h
  | node k cs =>
    rw [hp, children, node.sizeOf_spec] at hlt
    omega

end Concrete

end Bluespec
