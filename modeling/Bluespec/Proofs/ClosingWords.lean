import Bluespec.Proofs.GuardTexts
import Bluespec.Proofs.Layout

/-!
# Closing words that may be missing

A construct ends with its closing word, or where that is missing.  So constructs inside each other that are not closed
end one after the other in front of the same closing word, and each of them is reported there.

* **`Parser.Closes`** — what becomes of the closing word of a construct.
* **`Parser.Answers`** — what a run over given tokens comes to, up to its value; **`Answers.moduleDef`** and the like for
  definitions whose closing word may be missing.
* **`Parser.closeAll`** — what is left of closing words, and what is reported, behind constructs that end in front of
  them; **`foldl_closeOne_singleton`** says it of one closing word.
* **`Parser.InTurn.sorted`** — the reports are in the order of their places.
-/

namespace Bluespec

open Bluespec.Parser

/-! ## Headers without parts -/

namespace Grammar

variable {word type name semi : Token} {cs rest : List Token}

/-- The header of a rule that has a name only. -/
theorem goes_ruleHeader (hname : name.kind = .ident) (hsemi : semi.kind = .punct .semi) :
    Goes full.ruleHeader cs [word, name, semi] (name.text, none) rest := by
  refine .cons .skip (.cons (.expectText hname) (.look (fun _ _ => isNext_of_head (Lacks.cons hsemi (by decide) _)) ?_))
  exact .look (a := none) (fun _ _ => rfl) (.cons (.expectPunct hsemi) .value)

/-- The header of a function that has a named result and no formals. -/
theorem goes_functionHeader (word : Token) (cs : List Token) (htype : type.kind = .typeIdent)
    (hname : name.kind = .ident) (hsemi : semi.kind = .punct .semi) (rest : List Token) :
    ∃ span, Goes functionHeader cs [word, type, name, semi] (⟨.named type.text [], span⟩, name.text, []) rest := by
  let span : Span := ⟨type.span.start, max type.span.stop type.span.start⟩
  have hresult : ∀ limit, Goes (typeUpTo (limit + 1)) (word :: cs) [type] ⟨.named type.text [], span⟩
      ([name, semi] ++ rest) := by
    intro limit
    have hform : Goes (typeForm (typeUpTo limit)) (word :: cs) [type] (.named type.text []) ([name, semi] ++ rest) := by
      refine .peek ?_
      rw [htype]
      exact .cons (.expectText htype) (.look (fun _ _ => accept_of_head (Lacks.cons hname (by decide) _)) .value)
    refine .offset (hform.then_ ?_)
    exact Goes.spanFrom.then_ .value
  have htyped : Goes Parser.type (word :: cs) [type] ⟨.named type.text [], span⟩ ([name, semi] ++ rest) :=
    fun c ns => hresult _ c ns
  refine ⟨span, .cons .skip (htyped.cons (.cons (.expectText hname) ?_))⟩
  refine .look (a := []) (fun c ns => ?_) (.look (a := ()) (fun c ns => ?_) (.cons (.expectPunct hsemi) .value))
  · exact bind_of_some (isNext_of_head (Lacks.cons hsemi (by decide) _))
  · exact bind_of_some (isNext_of_head (Lacks.cons hsemi (by decide) _))

end Grammar

/-! ## Closing words -/

namespace Parser

variable {α β : Type} {c : Setting} {p q : Parser α} {f : α → Parser β} {a : α} {word : Keyword} {ok : Bool}
  {t : Token} {cs ts us rest : List Token} {ds ds₁ ds' : List Diagnostic}

/-- What becomes of the closing word of a construct: it is read, or reported to be missing. -/
inductive Closes (c : Setting) (word : Keyword) (ds : List Diagnostic) :
    List Token → Bool → List Diagnostic → List Token → Prop
  | found {t : Token} {rest : List Token} (ht : t.kind = .keyword word) (hrest : Lacks (.punct .colon) rest) :
      Closes c word ds [t] true ds rest
  | missing {rest : List Token} (h : Lacks (.keyword word) rest) :
      Closes c word ds [] false (missing c (.keyword word) rest :: ds) rest

/-- Whether the parser comes to a value over the tokens is `ok`. -/
def Answers (c : Setting) (p : Parser α) (cs ts : List Token) (ds : List Diagnostic) (ok : Bool)
    (ds' : List Diagnostic) (rest : List Token) : Prop :=
  ∃ r : Option α, r.isSome = ok ∧ ComesTo c p cs ts ds r ds' rest

namespace Answers

/-- Behind a parser that yields a value. -/
theorem after (h : ComesTo c p cs ts ds (some a) ds₁ (us ++ rest))
    (h' : Answers c (f a) (ts.reverse ++ cs) us ds₁ ok ds' rest) : Answers c (p >>= f) cs (ts ++ us) ds ok ds' rest := by
  obtain ⟨r, hr, hrun⟩ := h'
  exact ⟨r, hr, h.bind hrun⟩

/-- Behind a parser that reads one token. -/
theorem cons (h : ComesTo c p cs [t] ds (some a) ds₁ (ts ++ rest)) (h' : Answers c (f a) (t :: cs) ts ds₁ ok ds' rest) :
    Answers c (p >>= f) cs (t :: ts) ds ok ds' rest := by
  obtain ⟨r, hr, hrun⟩ := h'
  exact ⟨r, hr, h.cons hrun⟩

/-- Behind a parser that reads nothing. -/
theorem unread (h : ComesTo c p cs [] ds (some a) ds₁ (ts ++ rest)) (h' : Answers c (f a) cs ts ds₁ ok ds' rest) :
    Answers c (p >>= f) cs ts ds ok ds' rest := after h h'

/-- In front of a parser that only makes something of the value. -/
theorem then_ (h : Answers c p cs ts ds ok ds' rest) (hf : ∀ a, ∃ b, f a = pure b) :
    Answers c (p >>= f) cs ts ds ok ds' rest := by
  obtain ⟨_ | a, hr, hrun⟩ := h
  · exact ⟨none, hr, hrun.failed⟩
  · obtain ⟨b, hb⟩ := hf a
    exact ⟨some b, hr, hrun.then_ (hb ▸ .value)⟩

/-- In a parser that only looks before it does the same. -/
theorem lift (h : Answers c p cs ts ds ok ds' rest)
    (hlift : ∀ r, ComesTo c p cs ts ds r ds' rest → ComesTo c q cs us ds₁ r ds' rest) :
    Answers c q cs us ds₁ ok ds' rest := by
  obtain ⟨r, hr, hrun⟩ := h
  exact ⟨r, hr, hlift r hrun⟩

theorem offset {f : Nat → Parser β} (h : Answers c (f t.span.start) cs (t :: ts) ds ok ds' rest) :
    Answers c (offset >>= f) cs (t :: ts) ds ok ds' rest := h.lift fun _ => .offset

theorem peek {f : Option Kind → Parser β} (h : Answers c (f (some t.kind)) cs (t :: ts) ds ok ds' rest) :
    Answers c (peek >>= f) cs (t :: ts) ds ok ds' rest := h.lift fun _ => .peek

theorem skipAttributes {f : Unit → Parser β} (hlacks : Lacks (.punct .attrOpen) (ts ++ rest))
    (h : Answers c (f ()) cs ts ds ok ds' rest) : Answers c (skipAttributes >>= f) cs ts ds ok ds' rest :=
  h.lift fun _ => .skipAttributes hlacks

/-- What is made of a value and the span up to it. -/
theorem spanned {start : Nat} (h : Answers c p cs ts ds ok ds' rest) (g : α → Span → β) :
    Answers c (p >>= fun a => spanFrom start >>= fun span => pure (g a span)) cs ts ds ok ds' rest := by
  obtain ⟨_ | a, hr, hrun⟩ := h
  · exact ⟨none, hr, hrun.failed⟩
  · exact ⟨some (g a _), hr, hrun.then_ (ComesTo.spanFrom.then_ .value)⟩

theorem ending {kind : NodeKind} {start : Nat} (h : Closes c word ds ts ok ds' rest) :
    Answers c (Grammar.ending word kind start) cs ts ds ok ds' rest := by
  cases h with
  | found ht hrest =>
    obtain ⟨span, hspan⟩ := ComesTo.ending ht hrest
    exact ⟨some (none, span), rfl, hspan⟩
  | missing h => exact ⟨none, rfl, .ending_missing h⟩

/-- A module that has a name only in its header. -/
theorem moduleDef {name semi : Token} {stmts : List ModuleStmt} (hname : name.kind = .ident)
    (hsemi : semi.kind = .punct .semi)
    (hitems : ComesTo c (items Grammar.full.moduleStmt) (semi :: name :: t :: cs) ts [] (some stmts) ds (us ++ rest))
    (hcloses : Closes c .endmodule ds us ok ds' rest) :
    Answers c Grammar.full.moduleDef cs (t :: name :: semi :: (ts ++ us)) [] ok ds' rest := by
  have hheader : Goes (header .endmodule Grammar.moduleHeader) cs [t, name, semi] (none, name.text, [], [])
      (ts ++ us ++ rest) := (Grammar.goes_moduleHeader hname hsemi).header
  exact offset (after (.of_goes hheader) (after hitems ((ending hcloses).then_ fun _ => ⟨_, rfl⟩)))

/-- A function without formals, whose body is no lone action block. -/
theorem functionDef {type name semi : Token} {stmts : List Stmt} (htype : type.kind = .typeIdent)
    (hname : name.kind = .ident) (hsemi : semi.kind = .punct .semi)
    (haction : Lacks (.keyword .action) (ts ++ (us ++ rest)) ∧ Lacks (.keyword .actionvalue) (ts ++ (us ++ rest)))
    (hitems : ComesTo c (items (Grammar.full.innerStmt .functionBody)) (semi :: name :: type :: t :: cs) ts [] (some stmts)
      ds (us ++ rest))
    (hcloses : Closes c .endfunction ds us ok ds' rest) :
    Answers c Grammar.full.functionDef cs (t :: type :: name :: semi :: (ts ++ us)) [] ok ds' rest := by
  obtain ⟨span, hgoes⟩ := Grammar.goes_functionHeader t cs htype hname hsemi (ts ++ us ++ rest)
  have hlone : ∀ ns, Grammar.atLoneBlock .endfunction c ⟨semi :: name :: type :: t :: cs, ts ++ (us ++ rest), [], ns⟩ =
      (some false, ⟨semi :: name :: type :: t :: cs, ts ++ (us ++ rest), [], ns⟩) := by
    intro ns
    have hnext : ∀ {k : Kind}, Lacks k (ts ++ (us ++ rest)) →
        State.isNext ⟨semi :: name :: type :: t :: cs, ts ++ (us ++ rest), [], ns⟩ k = false :=
      fun h => Option.some.inj (congrArg Prod.fst (isNext_of_head (c := c) h))
    rw [Grammar.atLoneBlock, ask, hnext haction.1, hnext haction.2]
    rfl
  have hbody : ComesTo c (Grammar.full.body .functionBody .endfunction) (semi :: name :: type :: t :: cs) ts []
      (some (.stmts .functionBody stmts)) ds (us ++ rest) :=
    .look (a := false) hlone (.look (a := none) (fun _ => rfl) (hitems.then_ .value))
  exact offset (after (.of_goes hgoes.header) (after hbody ((ending hcloses).then_ fun _ => ⟨_, rfl⟩)))

/-- A rule without a guard. -/
theorem ruleDef {name semi : Token} {stmts : List Stmt} (hname : name.kind = .ident) (hsemi : semi.kind = .punct .semi)
    (hitems : ComesTo c (items (Grammar.full.innerStmt .action)) (semi :: name :: t :: cs) ts [] (some stmts)
      ds (us ++ rest))
    (hcloses : Closes c .endrule ds us ok ds' rest) :
    Answers c Grammar.full.ruleDef cs (t :: name :: semi :: (ts ++ us)) [] ok ds' rest := by
  have hheader : Goes (header .endrule Grammar.full.ruleHeader) cs [t, name, semi] (name.text, none)
      (ts ++ us ++ rest) := (Grammar.goes_ruleHeader hname hsemi).header
  exact offset (after (.of_goes hheader) (after hitems ((ending hcloses).then_ fun _ => ⟨_, rfl⟩)))

/-- A block without labels. -/
theorem block {dialect : Dialect} {stmts : List Stmt} (hword : t.kind = .keyword .begin)
    (hcolon : Lacks (.punct .colon) (ts ++ (us ++ rest)))
    (hitems : ComesTo c (items (Grammar.full.innerStmt dialect)) (t :: cs) ts [] (some stmts) ds (us ++ rest))
    (hcloses : Closes c .end_ ds us ok ds' rest) :
    Answers c (Grammar.full.block dialect .begin .end_) cs (t :: (ts ++ us)) [] ok ds' rest := by
  have hlabel : ComesTo c label (t :: cs) [] [] (some none) [] (ts ++ us ++ rest) := by
    rw [List.append_assoc]
    exact .noLabel hcolon
  refine offset (cons (.expectKeyword hword) (unread hlabel (after hitems ?_)))
  cases hcloses with
  | found ht hrest =>
    exact ⟨_, rfl, .cons (.expectKeyword ht) ((ComesTo.noLabel hrest).then_ (ComesTo.spanFrom.then_ .value))⟩
  | missing h => exact ⟨none, rfl, (ComesTo.expectKeyword_missing h).failed⟩

/-- The same tokens read by a parser that does the same in front of tokens. -/
theorem congr (h : Answers c p cs (t :: ts) ds ok ds' rest) (hsame : ∀ {s : State}, s.Headed → q c s = p c s) :
    Answers c q cs (t :: ts) ds ok ds' rest := by
  refine h.lift fun r hrun ns => ?_
  rw [hsame ⟨t, _, rfl⟩]
  exact hrun ns

/-- Reading goes on behind a construct, whether its closing word is there or not. -/
theorem resuming (h : Answers c p cs (t :: ts) ds ok ds' rest) (hrest : Closing rest) :
    ∃ read, ComesTo c (Parser.resuming p) cs (t :: ts) ds (some read) ds' rest := by
  obtain ⟨_ | a, -, hrun⟩ := h
  · exact ⟨none, hrun.resuming_failed (.closing hrest)⟩
  · exact ⟨some a, hrun.resuming⟩

end Answers

end Parser

/-! ## One construct after the other -/

namespace Parser

/-- Nothing but closing words. -/
def Closers (ts : List Token) : Prop := ∀ t ∈ ts, t.kind.isCloser = true

theorem Closers.right {ts us : List Token} (h : Closers (ts ++ us)) : Closers us :=
  fun t ht => h t (List.mem_append_right _ ht)

theorem Closers.tail {t : Token} {ts : List Token} (h : Closers (t :: ts)) : Closers ts :=
  fun t' ht' => h t' (List.mem_cons_of_mem t ht')

theorem Closers.closing {ts : List Token} (h : Closers ts) : Closing ts := fun t ht => h t (List.mem_of_mem_head? ht)

/-- A construct ends in front of closing words.  It takes the next one if that is its own word, and otherwise its word is
reported to be missing there. -/
def closeOne (c : Setting) (left : List Token × List Diagnostic) (word : Keyword) : List Token × List Diagnostic :=
  if left.1.head?.map Token.kind = some (.keyword word) then (left.1.tail, left.2)
  else (left.1, missing c (.keyword word) left.1 :: left.2)

theorem closeOne_found {c : Setting} {t : Token} {word : Keyword} (ht : t.kind = .keyword word) (ts : List Token)
    (ds : List Diagnostic) : closeOne c (t :: ts, ds) word = (ts, ds) := if_pos (congrArg some ht)

theorem closeOne_missing {c : Setting} {ts : List Token} {word : Keyword} (h : Lacks (.keyword word) ts)
    (ds : List Diagnostic) : closeOne c (ts, ds) word = (ts, missing c (.keyword word) ts :: ds) := by
  refine if_neg fun hkind => ?_
  obtain ⟨t, ht, hword⟩ := Option.map_eq_some_iff.mp hkind
  exact h t ht hword

/-- What is left of closing words, and what is reported, where constructs with the closing words `words` end in front of
them one after the other. -/
def closeAll (c : Setting) (ts : List Token) (words : List Keyword) : List Token × List Diagnostic :=
  words.foldl (closeOne c) (ts, [])

theorem closeAll_append (c : Setting) (ts : List Token) (words : List Keyword) (word : Keyword) :
    closeAll c ts (words ++ [word]) = closeOne c (closeAll c ts words) word := by
  rw [closeAll, List.foldl_append]
  rfl

/-- At the end of the source all constructs are reported. -/
theorem foldl_closeOne_nil (c : Setting) (words : List Keyword) (ds : List Diagnostic) :
    words.foldl (closeOne c) ([], ds) = ([], (words.map fun word => missing c (.keyword word) []).reverse ++ ds) := by
  induction words generalizing ds with
  | nil => rfl
  | cons word words ih =>
    rw [List.foldl_cons, closeOne_missing .nil, ih, List.map_cons, List.reverse_cons, List.append_assoc]
    rfl

/-- One closing word ends the constructs inside the one that it closes, which are reported there; those around that one
are reported behind it. -/
theorem foldl_closeOne_singleton (c : Setting) {t : Token} {word : Keyword} (ht : t.kind = .keyword word)
    (words : List Keyword) (ds : List Diagnostic) :
    words.foldl (closeOne c) ([t], ds) =
      (if word ∈ words then [] else [t],
        ((words.takeWhile (· ≠ word)).map (fun k => missing c (.keyword k) [t]) ++
          (words.dropWhile (· ≠ word)).tail.map fun k => missing c (.keyword k) []).reverse ++ ds) := by
  induction words generalizing ds with
  | nil => rfl
  | cons k words ih =>
    rw [List.foldl_cons]
    by_cases hk : k = word
    · subst hk
      rw [closeOne_found ht, if_pos List.mem_cons_self, List.dropWhile_cons_of_neg (by simp),
        List.takeWhile_cons_of_neg (by simp)]
      exact foldl_closeOne_nil c words ds
    · have hother : Lacks (.keyword k) [t] := .cons ht (fun hkind => hk (Kind.keyword.inj hkind).symm) []
      rw [closeOne_missing hother, List.dropWhile_cons_of_pos (by simpa using hk),
        List.takeWhile_cons_of_pos (by simpa using hk), ih]
      simp [Ne.symm hk]

theorem closes_closeOne {c : Setting} {left : List Token × List Diagnostic} (hleft : Closers left.1) (word : Keyword) :
    ∃ took ok, left.1 = took ++ (closeOne c left word).1 ∧
      Closes c word left.2 took ok (closeOne c left word).2 (closeOne c left word).1 := by
  obtain ⟨ts, ds⟩ := left
  by_cases h : Lacks (.keyword word) ts
  · rw [closeOne_missing h]
    exact ⟨[], false, rfl, .missing h⟩
  · obtain ⟨t, ht, hkind⟩ : ∃ t ∈ ts.head?, t.kind = .keyword word := by
      simpa only [Lacks, not_forall, exists_prop, not_not] using h
    obtain ⟨us, rfl⟩ := List.head?_eq_some_iff.mp ht
    rw [closeOne_found hkind]
    refine ⟨[t], true, rfl, .found hkind fun t' ht' hcolon => ?_⟩
    have hcloser := (Closers.tail hleft).closing t' ht'
    rw [hcolon] at hcloser
    cases hcloser

/-- The report that a token closes nothing. -/
def strayed (t : Token) : Diagnostic := ⟨.grammar (.unexpected t.kind), t.span⟩

/-- Where the next report is placed in front of closing words. -/
def nextStart (c : Setting) (ts : List Token) : Nat := ((ts.head?.map Token.span).getD (.point c.sourceEnd)).start

/-- What is left of ordered tokens, and reports on what stands before them, the last one first. -/
structure InTurn (c : Setting) (left : List Token × List Diagnostic) : Prop where
  ordered : Token.Ordered left.1
  inside : ∀ t ∈ left.1, t.span.stop ≤ c.sourceEnd
  before : ∀ d ∈ left.2, d.span.start ≤ nextStart c left.1
  pairwise : left.2.Pairwise fun a b => b.span.start ≤ a.span.start

namespace InTurn

variable {c : Setting} {left : List Token × List Diagnostic}

theorem nextStart_le {t : Token} {ts : List Token} (hordered : Token.Ordered (t :: ts))
    (hinside : ∀ t' ∈ t :: ts, t'.span.stop ≤ c.sourceEnd) : nextStart c (t :: ts) ≤ nextStart c ts := by
  have hstart : t.span.start < t.span.stop := hordered.nonempty t List.mem_cons_self
  cases ts with
  | nil => exact Nat.le_trans (Nat.le_of_lt hstart) (hinside t List.mem_cons_self)
  | cons t' ts =>
    exact Nat.le_trans (Nat.le_of_lt hstart) (List.rel_of_pairwise_cons hordered.before List.mem_cons_self)

theorem closeOne (h : InTurn c left) (word : Keyword) : InTurn c (closeOne c left word) := by
  obtain ⟨ts, ds⟩ := left
  unfold Parser.closeOne
  split
  · next hfound =>
    obtain ⟨t, ht, -⟩ := Option.map_eq_some_iff.mp hfound
    obtain ⟨us, rfl⟩ := List.head?_eq_some_iff.mp ht
    exact ⟨h.ordered.tail, fun t' ht' => h.inside t' (List.mem_cons_of_mem t ht'),
      fun d hd => Nat.le_trans (h.before d hd) (nextStart_le h.ordered h.inside), h.pairwise⟩
  · exact ⟨h.ordered, h.inside, List.forall_mem_cons.mpr ⟨Nat.le_refl _, h.before⟩, .cons h.before h.pairwise⟩

theorem closeAll {ts : List Token} (hordered : Token.Ordered ts) (hinside : ∀ t ∈ ts, t.span.stop ≤ c.sourceEnd)
    (words : List Keyword) : InTurn c (closeAll c ts words) := by
  have hall : ∀ left, InTurn c left → InTurn c (words.foldl (Parser.closeOne c) left) := by
    induction words with
    | nil => exact fun _ h => h
    | cons word words ih => exact fun left h => ih _ (h.closeOne word)
  exact hall (ts, []) ⟨hordered, hinside, fun _ hd => (List.not_mem_nil hd).elim, .nil⟩

/-- The reports, and those that the words left over close nothing, are in the order of their places. -/
theorem sorted (h : InTurn c left) :
    Diagnostic.sortByStart (left.2.reverse ++ left.1.map strayed) = left.2.reverse ++ left.1.map strayed := by
  have hbefore : ∀ {ts : List Token}, Token.Ordered ts → (∀ t ∈ ts, t.span.stop ≤ c.sourceEnd) →
      ∀ t ∈ ts, nextStart c ts ≤ t.span.start := by
    intro ts hordered hinside
    induction ts with
    | nil => exact nofun
    | cons t ts ih =>
      refine List.forall_mem_cons.mpr ⟨Nat.le_refl _, fun t' ht' => ?_⟩
      exact Nat.le_trans (nextStart_le hordered hinside)
        (ih (hordered.tail) (fun u hu => hinside u (List.mem_cons_of_mem t hu)) t' ht')
  have hleft : (left.1.map strayed).Pairwise fun a b => a.span.start ≤ b.span.start :=
    List.pairwise_map.mpr h.ordered.starts
  refine List.mergeSort_of_pairwise (List.Pairwise.imp (fun hle => decide_eq_true hle) ?_)
  refine List.pairwise_append.mpr ⟨List.pairwise_reverse.mpr h.pairwise, hleft, fun d hd d' hd' => ?_⟩
  obtain ⟨t, ht, rfl⟩ := List.mem_map.mp hd'
  exact Nat.le_trans (h.before d (List.mem_reverse.mp hd)) (hbefore h.ordered h.inside t ht)

end InTurn

end Parser

end Bluespec
