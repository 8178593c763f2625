import Bluespec.Proofs.MemberTexts
import Bluespec.Proofs.ValueBlockResults

/-!
# What a tag holds

Behind a tag an operand is read where a token stands that the list of first tokens names, and fields are read behind a
brace.  The list leaves out the don't-care mark, which asks for the branches of a conditional there, and the words that
open blocks: an operand that begins with such a word is no payload.

* **`Kind.opensBlock`**, **`startsPayload_eq`** — the first tokens of operands that the list leaves out.
* **`Grammar.operand_of_tag`** — in front of any other token there is a tag that holds nothing.
* **`Grammar.goes_payload`** — an operand whose first token is in the list is read as what the tag holds.
* **`ExprText.IsOperand`** — a text that is one operand with its suffixes.
* **`parseExpression_tagged`** — the texts that a tag may stand before.
-/

namespace Bluespec

open Bluespec.Parser

/-! ## First tokens -/

/-- The words that open what is an operand and ends with a word of its own. -/
def Kind.opensBlock : Kind → Bool
  | .keyword .begin | .keyword .action | .keyword .actionvalue | .keyword .interface => true
  | _ => false

/-- Infix operators, the mark of a conditional, closing brackets and commas. -/
def Kind.followsTag (k : Kind) : Bool :=
  (BinaryOp.ofKind? k).isSome || [Kind.punct .question, .punct .rparen, .punct .rbracket, .punct .rbrace,
    .punct .comma].contains k

/-- The list has the first tokens of all operands but the don't-care mark and the blocks. -/
theorem startsPayload_eq {k : Kind} (hstarts : k.startsPrimary = true) (hsystem : k ≠ .systemIdent)
    (hquestion : k ≠ .punct .question) : Grammar.startsPayload k = !k.opensBlock := by
  cases k with
  | punct p =>
    cases p with
    | question => exact absurd rfl hquestion
    | _ => first | rfl | cases hstarts
  | keyword w => cases w <;> first | rfl | cases hstarts
  | systemIdent => exact absurd rfl hsystem
  | _ => first | rfl | cases hstarts

/-- No payload and no suffix follows. -/
def Untagged (rest : List Token) : Prop :=
  ∀ t ∈ rest.head?, Grammar.startsPayload t.kind = false ∧ t.kind.startsSuffix = false

theorem untagged_of_follows {rest : List Token} (h : ∀ t ∈ rest.head?, t.kind.followsTag = true) : Untagged rest := by
  intro t ht
  have hfollows := h t ht
  cases hk : t.kind with
  | punct p =>
    rw [hk] at hfollows
    cases p <;> first | exact ⟨rfl, rfl⟩ | cases hfollows
  | _ =>
    rw [hk] at hfollows
    cases hfollows

theorem Kind.eq_of_opensBlock {k : Kind} (h : k.opensBlock = true) :
    k = .keyword .begin ∨ k = .keyword .action ∨ k = .keyword .actionvalue ∨ k = .keyword .interface := by
  unfold opensBlock at h
  split at h <;> simp_all

theorem untagged_of_opensBlock {t : Token} (h : t.kind.opensBlock = true) (rest : List Token) :
    Untagged (t :: rest) := by
  rintro t' ⟨⟩
  rcases Kind.eq_of_opensBlock h with hk | hk | hk | hk <;> rw [hk] <;> exact ⟨rfl, rfl⟩

namespace Grammar

theorem settled_of_opensBlock {c : Setting} {t : Token} {cs rest : List Token} {ds : List Diagnostic} {ns : List NodeSpan}
    (h : t.kind.opensBlock = true) : Settled 0 c ⟨cs, t :: rest, ds, ns⟩ := by
  rintro t' ⟨⟩
  rcases Kind.eq_of_opensBlock h with hk | hk | hk | hk <;> rw [hk] <;> exact ⟨nofun, nofun, nofun, nofun⟩

variable {c : Setting} {opening name : Token} {cs ts rest : List Token} {ds : List Diagnostic} {ns : List NodeSpan}

/-! ## Tags that hold nothing -/

theorem payload_of_untagged {g : Grammar} (h : Untagged rest) :
    g.payload c ⟨cs, rest, ds, ns⟩ = (some .none, ⟨cs, rest, ds, ns⟩) := by
  cases rest with
  | nil => rfl
  | cons t rest =>
    have hstarts := (h t rfl).1
    rw [payload, bind_of_some peek_cons]
    cases hk : t.kind with
    | punct p =>
      rw [hk] at hstarts
      cases p <;> first | rfl | cases hstarts
    | keyword w =>
      rw [hk] at hstarts
      cases w <;> first | rfl | cases hstarts
    | _ =>
      rw [hk] at hstarts
      first | rfl | cases hstarts

/-- A tag in front of what is neither a payload nor a suffix is an operand, and nothing behind it is read. -/
theorem operand_of_tag {g : Grammar} (hopening : opening.kind = .keyword .tagged) (hname : name.kind = .typeIdent)
    (h : Untagged rest) :
    g.operand c ⟨cs, opening :: name :: rest, ds, ns⟩ =
      (some ⟨.tagged name.text .none, ⟨opening.span.start, max name.span.stop opening.span.start⟩⟩,
        ⟨name :: opening :: cs, rest, ds, ns⟩) := by
  have hprimary : g.primary c ⟨cs, opening :: name :: rest, ds, ns⟩ =
      (some ⟨.tagged name.text .none, ⟨opening.span.start, max name.span.stop opening.span.start⟩⟩,
        ⟨name :: opening :: cs, rest, ds, ns⟩) := by
    rw [primary, bind_of_some offset_cons, bind_of_some peek_cons, hopening]
    show (skip >>= fun _ => expectText .typeIdent >>= fun text => g.payload >>= fun p =>
      spanFrom opening.span.start >>= fun span => pure (⟨.tagged text p, span⟩ : Expr)) c _ = _
    rw [bind_of_some (show skip c ⟨cs, opening :: name :: rest, ds, ns⟩ = (some (), ⟨opening :: cs, name :: rest, ds, ns⟩)
      from rfl), bind_of_some (expectText_of_kind hname), bind_of_some (payload_of_untagged h)]
    rfl
  rw [operand, bind_of_some hprimary]
  exact suffixes_of_head _ fun t ht => (h t ht).2

/-! ## Tags that hold something -/

/-- Fields in braces are what a tag holds. -/
theorem goes_structPayload {closing : Token} {members : List FieldBind} (hopening : opening.kind = .punct .lbrace)
    (h : Goes full.fieldBinds cs (opening :: ts ++ [closing]) members rest) :
    Goes full.payload cs (opening :: ts ++ [closing]) (.struct members) rest := by
  refine .peek ?_
  rw [hopening]
  exact h.then_ .value

/-- An operand that begins with a token of the list is what a tag holds. -/
theorem goes_payload {t : Token} {e : Expr} (hstarts : startsPayload t.kind = true) (hbrace : t.kind ≠ .punct .lbrace)
    (h : Goes full.innerOperand cs (t :: ts) e rest) : Goes full.payload cs (t :: ts) (.expr e) rest := by
  refine .peek ?_
  split
  · next heq => exact absurd (Option.some.inj heq) hbrace
  · next heq =>
    rw [← Option.some.inj heq, if_pos hstarts]
    exact h.then_ .value
  · next heq => cases heq

/-- A tag and what it holds. -/
theorem goes_tagged {last : Token} {p : Payload} (hopening : opening.kind = .keyword .tagged)
    (hname : name.kind = .typeIdent) (h : Goes full.payload [name, opening] (ts ++ [last]) p []) :
    Goes (full.innerExpr 0) [] (opening :: name :: (ts ++ [last]))
      ⟨.tagged name.text p, ⟨opening.span.start, max last.span.stop opening.span.start⟩⟩ [] := by
  refine goes_of_primary (.offset (.peek ?_))
  rw [hopening]
  exact .cons .skip (.cons (.expectText hname) h.spanned)

end Grammar

/-! ## Texts of operands -/

theorem Grammar.tracks_operand (k : Nat) : Tracks (.shift k) 0 (By (Expr.move (· + k))) full.innerOperand
    full.innerOperand :=
  ((Grammar.Tracked.full (.shift k)).innerOperand 0).weaken (Nat.le_refl 0) fun _ _ _ _ he => he.1

namespace ExprText

/-- The text is one operand with its suffixes: nothing is left behind it. -/
def IsOperand (x : ExprText) : Prop :=
  ∃ e s', Grammar.full.innerOperand (.ofText x.text .collectAll) (.ofText x.text) = (some e, s') ∧ s'.rest = []

/-- The first token is of some kind. -/
def Begins (x : ExprText) (P : Kind → Prop) : Prop := ∀ t ∈ (Token.significant x.text).head?, P t.kind

variable {x : ExprText}

theorem Begins.tokensAt {P : Kind → Prop} (h : x.Begins P) (offset : Nat) :
    ∃ t ts, x.tokensAt offset = t :: ts ∧ P t.kind := by
  obtain ⟨t, ts, hcons, -⟩ := x.exists_first
  refine ⟨t.move (· + offset), ts.map (Token.move (· + offset)), ?_, h t (by rw [hcons]; rfl)⟩
  rw [ExprText.tokensAt, hcons]
  rfl

theorem IsOperand.starts (h : x.IsOperand) : x.Begins fun k => k.startsPrimary = true ∧ k ≠ .systemIdent := by
  obtain ⟨e, s', hrun, -⟩ := h
  intro t ht
  have hpeek : (State.ofText x.text).peek = some t.kind := congrArg (Option.map Token.kind) ht
  exact Grammar.operand_starts hpeek hrun

/-- The operand is the expression. -/
theorem IsOperand.read (h : x.IsOperand) :
    parseOnly Grammar.full.innerOperand .invalidExpression x.text = .ok x.expr := by
  obtain ⟨t, us, hcons, -⟩ := x.exists_first
  have hfirst : (Token.significant x.text).head? = some t := by rw [hcons, List.head?_cons]
  have hpeek : (State.ofText x.text).peek = some t.kind := congrArg (Option.map Token.kind) hfirst
  have hunary := UnaryOp.ofKind?_of_primary (h.starts t hfirst).1
  obtain ⟨e, s', hrun, hend⟩ := h
  obtain ⟨hlexical, s₁, hexpr, -, hclean⟩ := parseOnly_eq_ok.mp x.read
  obtain ⟨target, s₂, hoperand, hoperations⟩ := Grammar.exists_operand_of_expr hpeek hunary hexpr
  rw [hrun] at hoperand
  cases hoperand
  have hsettled : Grammar.Settled 0 (.ofText x.text .collectAll) s' := by
    rw [Grammar.Settled, hend]
    exact nofun
  rw [Grammar.operations_of_settled hsettled] at hoperations
  cases hoperations
  exact parseOnly_eq_ok.mpr ⟨hlexical, s', hrun, hend, hclean⟩

/-- The operand is read wherever its tokens stand, with nothing behind them. -/
theorem IsOperand.goes (h : x.IsOperand) (k : Nat) (cs : List Token) :
    Goes Grammar.full.innerOperand cs (x.tokensAt k) (x.expr.move (· + k)) [] :=
  goes_of_parseOnly (fun tokens n => (inner_full tokens n).operand) (Grammar.tracks_operand k) h.read cs [] nofun

end ExprText

/-! ## Tags before texts -/

/-- The word that begins a tag. -/
def taggedWord : Identifier (.keyword .tagged) := ⟨'t', "agged".toList, rfl, List.all_eq_true.mp rfl, rfl⟩

namespace Identifier

variable (tag : Identifier .typeIdent)

/-- A tag and the space behind it. -/
def prefixText : String := "tagged " ++ tag.text ++ " "

/-- The number of bytes of a tag and the space behind it. -/
def prefixSize : Nat := Text.byteSize tag.prefixText.toList

theorem lexed_prefixText (rest : List Char) :
    Lexed 0 tag.prefixText.toList [Lexed.nameAt taggedWord 0, Lexed.nameAt tag 7] rest := by
  have hword : Lexed 0 "tagged ".toList [Lexed.nameAt taggedWord 0] (tag.text.toList ++ " ".toList ++ rest) :=
    (Lexed.name taggedWord rfl (fun d hd => by cases hd; rfl)).append .space
  have hname : Lexed 7 (tag.text.toList ++ " ".toList) [Lexed.nameAt tag 7] rest :=
    (Lexed.name tag rfl (fun d hd => by cases hd; rfl)).append .space
  rw [prefixText, String.toList_append, String.toList_append, List.append_assoc]
  exact hword.append hname

end Identifier

namespace ExprText

variable (x : ExprText) (tag : Identifier .typeIdent)

/-- The text behind a tag. -/
def tagged : String := tag.prefixText ++ x.text

theorem lexed_tagged : Lexed 0 (x.tagged tag).toList
    (Lexed.nameAt taggedWord 0 :: Lexed.nameAt tag 7 :: x.tokensAt tag.prefixSize) [] := by
  have hlast : Lexed (0 + Text.byteSize tag.prefixText.toList) x.text.toList (x.tokensAt tag.prefixSize) [] := by
    rw [Nat.zero_add]
    exact .last x.lexical
  rw [tagged, String.toList_append]
  exact (tag.lexed_prefixText _).append hlast

variable {x}

/-- An operand whose first token is in the list is what the tag holds. -/
theorem parseExpression_tagged_operand (hx : x.IsOperand)
    (hfirst : x.Begins fun k => Grammar.startsPayload k = true ∧ k ≠ .punct .lbrace) :
    parseExpression (x.tagged tag) = .ok ⟨.tagged tag.text (.expr (x.expr.move (· + tag.prefixSize))),
      ⟨0, x.expr.span.stop + tag.prefixSize⟩⟩ := by
  have hpayload : Goes Grammar.full.payload [Lexed.nameAt tag 7, Lexed.nameAt taggedWord 0] (x.tokensAt tag.prefixSize)
      (.expr (x.expr.move (· + tag.prefixSize))) [] := by
    have hoperand := hx.goes tag.prefixSize [Lexed.nameAt tag 7, Lexed.nameAt taggedWord 0]
    obtain ⟨t, ts, hcons, hstarts, hbrace⟩ := hfirst.tokensAt tag.prefixSize
    rw [hcons] at hoperand ⊢
    exact Grammar.goes_payload hstarts hbrace hoperand
  obtain ⟨hwhole, hlexical⟩ := (x.lexed_tagged tag).whole
  obtain ⟨us, last, hends, hstop⟩ := x.exists_last_at tag.prefixSize
  have hspan : max last.span.stop (Lexed.nameAt taggedWord 0).span.start = x.expr.span.stop + tag.prefixSize := by
    rw [hstop]
    exact Nat.max_eq_left (Nat.zero_le _)
  rw [hends] at hpayload hwhole
  have htagged := Grammar.goes_tagged rfl rfl hpayload
  rw [hspan] at htagged
  refine parseOnly_of_goes_all hlexical ?_
  rw [hwhole]
  exact htagged

/-- What begins with a word that opens a block is left behind the tag. -/
theorem error_tagged_block (hblock : x.Begins fun k => k.opensBlock = true) :
    ∃ ds, parseExpression (x.tagged tag) = .error ds := by
  cases hread : parseExpression (x.tagged tag) with
  | error ds => exact ⟨ds, rfl⟩
  | ok e =>
    obtain ⟨t, ts, hcons, hopens⟩ := hblock.tokensAt tag.prefixSize
    obtain ⟨-, s', hrun, hend, -⟩ := parseOnly_eq_ok.mp hread
    replace hrun : Grammar.full.innerExpr 0 (.ofText (x.tagged tag) .collectAll)
        ⟨[], Token.significant (x.tagged tag), [], []⟩ = _ := hrun
    rw [(x.lexed_tagged tag).whole.1, hcons] at hrun
    obtain ⟨target, s₁, hoperand, hoperations⟩ := Grammar.exists_operand_of_expr rfl rfl hrun
    rw [Grammar.innerOperand_eq, Grammar.operand_of_tag rfl rfl (untagged_of_opensBlock hopens _)] at hoperand
    cases hoperand
    rw [Grammar.operations_of_settled (Grammar.settled_of_opensBlock hopens)] at hoperations
    cases hoperations
    cases hend

end ExprText

/-- Fields in braces behind a tag. -/
theorem readsAs_taggedStruct (tag : Identifier .typeIdent) (m : Piece Grammar.full.fieldBind)
    (ms : List (Piece Grammar.full.fieldBind)) :
    ReadsAs (tag.prefixText ++ "\x7b" ++ Piece.listText (m :: ms) ++ "\x7d")
      (.tagged tag.text (.struct (Piece.listValues (tag.prefixSize + 1) (m :: ms)))) := by
  have hopening : Lexed (0 + Text.byteSize tag.prefixText.toList) "\x7b".toList [Lexed.symbolAt .lbrace tag.prefixSize]
      ((Piece.listText (m :: ms)).toList ++ "\x7d".toList) := by
    rw [Nat.zero_add]
    exact .symbol (p := .lbrace) (Lexeme.longest?_bracket (by decide) _)
  have hlexed : Lexed 0 (tag.prefixText ++ "\x7b" ++ Piece.listText (m :: ms)).toList
      (Lexed.nameAt taggedWord 0 :: Lexed.nameAt tag 7 :: Lexed.symbolAt .lbrace tag.prefixSize ::
        Piece.listTokens (tag.prefixSize + 1) (m :: ms)) "\x7d".toList := by
    rw [String.toList_append, String.toList_append, List.append_assoc]
    refine (tag.lexed_prefixText _).append (hopening.append ?_)
    rw [Nat.zero_add]
    exact Piece.lexed_list m ms _ _
  have hmembers : Goes (separated .comma Grammar.full.fieldBind)
      [Lexed.symbolAt .lbrace tag.prefixSize, Lexed.nameAt tag 7, Lexed.nameAt taggedWord 0]
      (Piece.listTokens (tag.prefixSize + 1) (m :: ms)) (Piece.listValues (tag.prefixSize + 1) (m :: ms))
      [Lexed.symbolAt .rbrace (Text.byteSize (tag.prefixText ++ "\x7b" ++ Piece.listText (m :: ms)).toList)] :=
    Piece.goes_list (.cons rfl rfl []) (.cons (k := .punct .rbrace) rfl (by decide) []) m ms _ _
  exact readsAs_of_lexed (p := .rbrace) (by decide) hlexed
    (Grammar.goes_tagged rfl rfl (Grammar.goes_structPayload rfl (Grammar.goes_fieldBinds rfl rfl hmembers)))

/-- What a tag holds.  A text that is one operand, and that begins neither with the don't-care mark nor with a brace, is
the payload of a tag before it, unless it begins with a word that opens a block: then the text with the tag is rejected.
Fields in braces are a payload too.  In front of an infix operator, a question mark, a closing bracket, a comma or the end
of the tokens a tag is an operand that holds nothing, and nothing behind it is read. -/
theorem parseExpression_tagged (tag : Identifier .typeIdent) :
    (∀ x : ExprText, x.IsOperand → x.Begins (· ≠ .punct .question) → x.Begins (· ≠ .punct .lbrace) →
      (x.Begins (fun k => k.opensBlock = false) →
        parseExpression (x.tagged tag) = .ok ⟨.tagged tag.text (.expr (x.expr.move (· + tag.prefixSize))),
          ⟨0, x.expr.span.stop + tag.prefixSize⟩⟩) ∧
      (x.Begins (fun k => k.opensBlock = true) → ∃ ds, parseExpression (x.tagged tag) = .error ds)) ∧
    (∀ m ms, ReadsAs (tag.prefixText ++ "\x7b" ++ FieldText.lines (m :: ms) ++ "\x7d")
      (.tagged tag.text (.struct (FieldText.bindsAt (tag.prefixSize + 1) (m :: ms))))) ∧
    ∀ (g : Grammar) (c : Setting) (opening name : Token) (cs rest : List Token) (ds : List Diagnostic) (ns : List NodeSpan),
      opening.kind = .keyword .tagged → name.kind = .typeIdent → (∀ t ∈ rest.head?, t.kind.followsTag = true) →
        g.operand c ⟨cs, opening :: name :: rest, ds, ns⟩ =
          (some ⟨.tagged name.text .none, ⟨opening.span.start, max name.span.stop opening.span.start⟩⟩,
            ⟨name :: opening :: cs, rest, ds, ns⟩) := by
  refine ⟨fun x hx hquestion hbrace => ⟨fun hopens => ?_, x.error_tagged_block tag⟩, fun m ms => ?_, ?_⟩
  · refine ExprText.parseExpression_tagged_operand tag hx fun t ht => ⟨?_, hbrace t ht⟩
    obtain ⟨hstarts, hsystem⟩ := hx.starts t ht
    rw [startsPayload_eq hstarts hsystem (hquestion t ht), hopens t ht]
    rfl
  · rw [← FieldText.listText_piece, ← FieldText.listValues_piece]
    exact readsAs_taggedStruct tag m.piece (ms.map FieldText.piece)
  · intro g c opening name cs rest ds ns hopening hname hfollows
    exact Grammar.operand_of_tag hopening hname (untagged_of_follows hfollows)

example : parseExpression "tagged T f(x)" =
    .ok ⟨.tagged "T" (.expr ⟨.call ⟨.var "f", ⟨9, 10⟩⟩ [⟨.var "x", ⟨11, 12⟩⟩], ⟨9, 13⟩⟩), ⟨0, 13⟩⟩ := rfl

/-- A block is one operand, and it is rejected behind a tag. -/
theorem parseExpression_tagged_begin :
    (∃ x : ExprText, x.text = "begin x end" ∧ x.IsOperand ∧ x.Begins (· ≠ .punct .question) ∧ x.Begins (· ≠ .punct .lbrace)) ∧
      ¬ ∃ e, parseExpression "tagged T begin x end" = .ok e := by
  constructor
  · refine ⟨⟨"begin x end", ⟨.valueBlock ⟨none, none⟩ [] ⟨.var "x", ⟨6, 7⟩⟩, ⟨0, 11⟩⟩, rfl⟩, rfl, ⟨_, _, rfl, rfl⟩, ?_, ?_⟩
    all_goals
      rintro t ⟨⟩
      decide
  · rintro ⟨e, he⟩
    cases he

end Bluespec
