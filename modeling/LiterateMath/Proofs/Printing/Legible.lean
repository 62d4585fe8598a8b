import LiterateMath.Parse.Statement
import LiterateMath.Proofs.Numerals
import LiterateMath.Proofs.Operands
import LiterateMath.Proofs.Printing.Tokens

/-! What is read can be written so that it reads again. The names and the numbers of whatever
comes out of the builder are such as the lexer makes them. -/
namespace LiterateMath

open Lexical

section Names

/-- Names whose text is read as that name. Digits are a name only below another. -/
def Name.legible : (asSubscript : Bool) → Name → Prop
  | asSubscript, .text letters =>
      (Letters letters ∧ Keyword.ofText? letters = none) ∨ (asSubscript = true ∧ Digits letters)
  | _, .greek _ => True
  | asSubscript, .subscripted base sub =>
      base.isSubscripted = false ∧ base.legible asSubscript ∧ sub.legible true

theorem stripBracesPart {ts stripped : List Token} (h : stripBraces ts = .ok stripped) :
    stripped ⊆ ts := by
  fun_induction stripBraces ts generalizing stripped with
  | case1 =>
      cases h
      exact List.Subset.refl _
  | case2 =>
      cases h
      exact List.Subset.refl _
  | case3 t rest opens inside closer after cut ih =>
      obtain ⟨u, -, h⟩ := bindIsOk.mp h
      obtain ⟨rfl, -, -⟩ := splitClosingFound cut
      split at h
      · have inner := ih h
        exact List.subset_cons_of_subset t (List.Subset.trans inner (List.subset_append_left _ _))
      · cases h
        exact List.Subset.refl _
  | case4 =>
      cases h
      exact List.Subset.refl _

theorem cutAtBefore {α : Type} {test : α → Bool} {as front back : List α} {a : α}
    (h : cutAt test as = some (front, a, back)) : ∀ b ∈ front, test b = false := by
  induction as generalizing front with
  | nil => cases h
  | cons b rest ih =>
      unfold cutAt at h
      split at h
      · cases h
        simp
      · rename_i here
        obtain ⟨⟨_, _, _⟩, later, same⟩ := Option.map_eq_some_iff.mp h
        cases same
        intro b' member
        rcases List.mem_cons.mp member with rfl | inside
        · exact Bool.eq_false_iff.mpr here
        · exact ih later b' inside

theorem parseAtomLegible {asSubscript : Bool} {ts : List Token} {n : Name}
    (h : parseAtom asSubscript ts = .ok n) (proper : ∀ t ∈ ts, t.proper) :
    n.legible asSubscript ∧ n.isSubscripted = false := by
  unfold parseAtom at h
  split at h
  · cases h
  · rename_i t
    have sound (w : Word) (word : t.word? = some w) : w.proper := by
      cases t with
      | plain w' place =>
          cases word
          exact proper _ List.mem_cons_self
      | command => cases word
    split at h
    · rename_i letters word
      cases h
      have sound := sound _ word
      exact ⟨.inl ⟨sound.1, sound.2 letters rfl⟩, rfl⟩
    · cases h
      exact ⟨trivial, rfl⟩
    · rename_i digits word
      split at h
      · rename_i below
        cases h
        exact ⟨.inr ⟨below, (sound _ word).1⟩, rfl⟩
      · cases h
    · cases h
  · cases h

theorem parseNameFlat {limit : Nat} {asSubscript : Bool} {ts : List Token} {n : Name}
    (h : parseName limit asSubscript ts = .ok n) (flat : ∀ t ∈ ts, t.word? ≠ some .underscore) :
    ∃ stripped ⊆ ts, parseAtom asSubscript stripped = .ok n := by
  cases limit with
  | zero => cases h
  | succ limit =>
      obtain ⟨stripped, strips, h⟩ := bindIsOk.mp h
      have part := stripBracesPart strips
      split at h
      · exact ⟨stripped, part, h⟩
      · rename_i cut
        obtain ⟨sep, word, rfl⟩ := splitOnceFound cut
        exact absurd word (flat sep (part (by simp)))

theorem parseNameLegible {limit : Nat} {asSubscript : Bool} {ts : List Token} {n : Name}
    (h : parseName limit asSubscript ts = .ok n) (proper : ∀ t ∈ ts, t.proper) :
    n.legible asSubscript := by
  induction limit generalizing asSubscript ts n with
  | zero => cases h
  | succ limit ih =>
      obtain ⟨stripped, strips, h⟩ := bindIsOk.mp h
      have part := stripBracesPart strips
      split at h
      · exact (parseAtomLegible h fun t member => proper t (part member)).1
      · rename_i cut
        obtain ⟨b, first, h⟩ := bindIsOk.mp h
        obtain ⟨s, second, same⟩ := bindIsOk.mp h
        cases same
        obtain ⟨⟨front, sep, back⟩, found, same⟩ := Option.map_eq_some_iff.mp cut
        cases same
        obtain ⟨-, rfl⟩ := cutAtFound found
        have before : ∀ t ∈ front, t.proper := fun t member => proper t (part (by simp [member]))
        have after : ∀ t ∈ back, t.proper := fun t member => proper t (part (by simp [member]))
        have flat : ∀ t ∈ front, t.word? ≠ some .underscore := fun t member =>
          of_decide_eq_false (cutAtBefore found t member)
        obtain ⟨atom, inside, read⟩ := parseNameFlat first flat
        have single := (parseAtomLegible read fun t member => before t (inside member)).2
        exact ⟨single, ih first before, ih second after⟩

end Names

section Legible

def Number.legible : Number → Prop
  | .integer n => ∃ m : Nat, n = m ∧ (Text.numeral m).length ≤ longestLiteral
  | .real _ => True
  | _ => False

mutual

def Expr.legible : Expr → Prop
  | .literal value _ => value.legible
  | .lookup name _ => name.legible false
  | .call function args _ => function.legible false ∧ legibleAll args
  | .unary _ arg _ => arg.legible
  | .binary _ lhs rhs _ => lhs.legible ∧ rhs.legible
  | .conditional condition ifTrue ifFalse _ =>
      condition.legible ∧ ifTrue.legible ∧ ifFalse.legible

def legibleAll : List Expr → Prop
  | [] => True
  | e :: rest => e.legible ∧ legibleAll rest

end

theorem legibleEach {es : List Expr} : legibleAll es ↔ ∀ e ∈ es, e.legible := by
  induction es with
  | nil => simp [legibleAll]
  | cons e rest ih => simp [legibleAll, ih]

def Operand.legible : Operand → Prop
  | .number digits => Digits digits
  | .real _ => True
  | .name n => n.legible false
  | .call function args => function.legible false ∧ legibleAll args

def Piece.legible : Piece → Prop
  | .token t => t.proper
  | .name n _ => n.legible false
  | .call function args _ => function.legible false ∧ legibleAll args

def Postfix.legible : Postfix → Prop
  | .operand o _ => o.legible
  | .operation .. => True

def Statement.legible : Statement → Prop
  | .expression e => e.legible
  | .functionDeclaration d => d.name.legible false
  | .valueDeclaration name value _ => name.legible false ∧ value.legible
  | .setDeclaration name members _ => name.legible false ∧ legibleAll members
  | .functionDefinition d => d.name.legible false ∧ (∀ n ∈ d.params, n.legible false) ∧
      hasRepeat d.params = false ∧ d.body.legible ∧ d.captures = []

theorem settledLegible {e : Expr} (h : e.legible) (place : Option Span) :
    (e.settleAt place).legible := by
  unfold Expr.settleAt
  split
  · exact h
  · cases e <;> exact h

end Legible

section Pieces

theorem dropCommentsPart (inComment : Bool) (ts : List Token) : dropComments inComment ts ⊆ ts := by
  induction ts generalizing inComment with
  | nil => exact List.Subset.refl _
  | cons t rest ih =>
      rw [dropComments]
      split
      · exact List.subset_cons_of_subset t (ih true)
      · split
        · exact List.subset_cons_of_subset t (ih true)
        · exact List.cons_subset_cons t (ih false)

theorem groupProper {name : String} {required optional : List (List Token)} {place : Span}
    (h : (Token.command name required optional place).proper) {group : List Token}
    (member : group ∈ required ++ optional) : ∀ t ∈ groupCode group, t.proper := by
  refine normalizeProper fun t kept w word => ?_
  refine h w ?_
  rw [Token.words, groupWordsMap, groupWordsMap, ← List.flatMap_append]
  refine List.mem_flatMap.mpr ⟨group, member, ?_⟩
  rw [tokenWordsMap]
  exact List.mem_flatMap.mpr ⟨t, dropCommentsPart false group kept, word⟩

def Word.putIn : Word → Bool
  | .opening .paren | .closing .paren | .sign _ | .real _ => true
  | .number digits => digits = "2"
  | _ => false

/-- What is true of the tokens that spelling out puts in, and of those that it leaves as they are
if they had another property before, which the code in the groups of a command then has too. -/
structure KeptByLowering (before after : Token → Prop) : Prop where
  put {w : Word} (isPut : w.putIn = true) (place : Span) : after (.plain w place)
  stays {t : Token} (spelled : t.spelledOut = true) (h : before t) : after t
  groups {name : String} {required optional : List (List Token)} {place : Span}
    (whole : before (.command name required optional place)) {group : List Token}
    (member : group ∈ required ++ optional) : ∀ t ∈ groupCode group, before t

section Lowering

variable {before after : Token → Prop}

theorem parenthesizedKept (kept : KeptByLowering before after) {ts : List Token}
    (h : ∀ t ∈ ts, after t) (place : Span) : ∀ t ∈ parenthesized place ts, after t := by
  intro t member
  simp only [parenthesized, List.mem_append, List.mem_cons, List.not_mem_nil, or_false] at member
  obtain (rfl | inside) | rfl := member
  · exact kept.put rfl place
  · exact h t inside
  · exact kept.put rfl place

theorem quotientKept (kept : KeptByLowering before after) {first second : List Token}
    (h : ∀ t ∈ first, after t) (h' : ∀ t ∈ second, after t) (place : Span) (s : Sign) :
    ∀ t ∈ quotient place s first second, after t := by
  intro t member
  simp only [quotient, List.mem_append, List.mem_cons] at member
  obtain front | rfl | back := member
  · exact parenthesizedKept kept h place t front
  · exact kept.put rfl place
  · exact parenthesizedKept kept h' place t back

theorem overIndexKept (kept : KeptByLowering before after) {index : List Token}
    (h : ∀ t ∈ index, after t) (place : Span) : ∀ t ∈ overIndex place index, after t := by
  intro t member
  simp only [overIndex, List.mem_cons] at member
  obtain rfl | rfl | inside := member
  · exact kept.put rfl place
  · exact kept.put rfl place
  · exact parenthesizedKept kept h place t inside

theorem lowerKept (kept : KeptByLowering before after) {limit : Nat} {ts lowered : List Token}
    (h : lowerCommands limit ts = .ok lowered) (whole : ∀ t ∈ ts, before t) :
    ∀ t ∈ lowered, after t := by
  induction limit generalizing ts lowered with
  | zero => cases h
  | succ limit ih =>
      obtain ⟨parts, read, rfl⟩ := lowerOk.mp h
      intro t member
      obtain ⟨part, found, inside⟩ := List.mem_flatten.mp member
      obtain ⟨t', member', single⟩ := mapMFrom read part found
      have here := whole t' member'
      cases t' with
      | plain w place =>
          cases single
          split at inside
          · cases inside
          · rename_i unsized
            obtain rfl := List.mem_singleton.mp inside
            exact kept.stays (by simp [Token.spelledOut, Token.word?, unsized]) here
      | command name required optional place =>
          have group {g out : List Token} (member : g ∈ required ++ optional)
              (lowers : lowerCommands limit (groupCode g) = .ok out) : ∀ t ∈ out, after t :=
            ih lowers (kept.groups here member)
          have two : ∀ t ∈ [Token.plain (.number "2") place], after t :=
            List.forall_mem_singleton.mpr (kept.put rfl place)
          simp only [lowerToken] at single
          split at single
          · split at single
            · obtain ⟨a, above, single⟩ := bindIsOk.mp single
              obtain ⟨b, below, same⟩ := bindIsOk.mp single
              cases same
              exact quotientKept kept (group (by simp) above) (group (by simp) below) _ .slash t
                inside
            · cases single
          · split at single
            · split at single
              · obtain ⟨a, above, same⟩ := bindIsOk.mp single
                cases same
                exact quotientKept kept (group (by simp) above) (overIndexKept kept two place) _
                  .caret t inside
              · obtain ⟨n, exponent, single⟩ := bindIsOk.mp single
                obtain ⟨a, above, same⟩ := bindIsOk.mp single
                cases same
                exact quotientKept kept (group (by simp) above)
                  (overIndexKept kept (group (by simp) exponent) place) _ .caret t inside
              · cases single
            · cases single

theorem joinRealsKept (kept : KeptByLowering before after) {ts : List Token}
    (h : ∀ t ∈ ts, after t) : ∀ t ∈ joinReals ts, after t := by
  fun_induction joinReals ts with
  | case1 whole first at_ fraction last rest ih =>
      intro t member
      rcases List.mem_cons.mp member with rfl | later
      · exact kept.put rfl _
      · exact ih (fun t' inside => h t' (by simp [inside])) t later
  | case2 t rest single ih =>
      intro t' member
      rcases List.mem_cons.mp member with rfl | later
      · exact h _ List.mem_cons_self
      · exact ih (fun t' inside => h t' (by simp [inside])) t' later
  | case3 => exact h

end Lowering

theorem properKept : KeptByLowering Token.proper Token.proper where
  put {w} isPut place := by
    cases w with
    | number digits =>
        obtain rfl : digits = "2" := of_decide_eq_true isPut
        exact ⟨by simp [Word.lexed, Digits], by simp⟩
    | text => cases isPut
    | _ => exact Word.fixedProper rfl
  stays _ h := h
  groups whole _ member := groupProper whole member

theorem takeSubscriptsParts {ts subs after : List Token}
    (h : takeSubscripts ts = .ok (subs, after)) : ts = subs ++ after := by
  fun_induction takeSubscripts ts generalizing subs after with
  | case1 =>
      cases h
      rfl
  | case2 => cases h
  | case3 => cases h
  | case4 u _ t rest _ inside closer tail cut ih =>
      obtain ⟨_, -, h⟩ := bindIsOk.mp h
      obtain ⟨more, found, same⟩ := bindIsOk.mp h
      cases same
      obtain ⟨rfl, -, -⟩ := splitClosingFound cut
      rw [ih found]
      simp
  | case5 u _ t rest _ ih =>
      obtain ⟨more, found, same⟩ := bindIsOk.mp h
      cases same
      rw [ih found]
      rfl
  | case6 =>
      cases h
      rfl

theorem gatherNamesLegible {ts : List Token} {ps : List Piece} (h : gatherNames ts = .ok ps)
    (proper : ∀ t ∈ ts, t.proper) : ∀ p ∈ ps, p.legible := by
  fun_induction gatherNames ts generalizing ps with
  | case1 =>
      cases h
      simp
  | case2 => cases h
  | case3 t rest starts subs after taken ih =>
      obtain rfl := takeSubscriptsParts taken
      obtain ⟨name, read, h⟩ := bindIsOk.mp h
      obtain ⟨others, later, same⟩ := bindIsOk.mp h
      cases same
      intro p member
      rcases List.mem_cons.mp member with rfl | inside
      · refine parseNameLegible read fun t' used => proper t' ?_
        rcases List.mem_cons.mp used with rfl | sub
        · exact List.mem_cons_self
        · simp [sub]
      · exact ih later (fun t' kept => proper t' (by simp [kept])) p inside
  | case4 t rest other ih =>
      obtain ⟨others, later, same⟩ := bindIsOk.mp h
      cases same
      intro p member
      rcases List.mem_cons.mp member with rfl | inside
      · exact proper t List.mem_cons_self
      · exact ih later (fun t' kept => proper t' (by simp [kept])) p inside

theorem toPiecesLegible {ts : List Token} {ps : List Piece} (h : toPieces ts = .ok ps)
    (proper : ∀ t ∈ ts, t.proper) : ∀ p ∈ ps, p.legible := by
  obtain ⟨lowered, spelled, gathered⟩ := toPiecesOk.mp h
  exact gatherNamesLegible gathered (joinRealsKept properKept (lowerKept properKept spelled proper))

end Pieces

section Trees

theorem roleLegible {p : Piece} {expecting : Bool} {o : Operand} (h : p.legible)
    (role : p.role expecting = .operand o) : o.legible := by
  cases p with
  | token t =>
      cases t with
      | plain w place =>
          cases w with
          | number digits =>
              cases role
              exact h.1
          | real value =>
              cases role
              trivial
          | sign s =>
              simp only [Piece.role, Word.role] at role
              split at role <;> cases role
          | _ => cases role
      | command => cases role
  | name n place =>
      cases role
      exact h
  | call function args place =>
      cases role
      exact h

theorem putsKept {holds : Postfix → Prop} (operations : ∀ op place, holds (.operation op place))
    (ops : List (Operation × Span)) : ∀ i ∈ ops.map puts, holds i := by
  intro i member
  obtain ⟨o, -, rfl⟩ := List.mem_map.mp member
  exact operations _ _

theorem stepKept {holds : Postfix → Prop} (operations : ∀ op place, holds (.operation op place))
    {y y' : Yard} {p : Piece} (h : y.step p = .ok y')
    (operand : ∀ expecting o, p.role expecting = .operand o → holds (.operand o p.span))
    (emitted : ∀ i ∈ y.emitted, holds i) : ∀ i ∈ y'.emitted, holds i := by
  have released (ops : List (Operation × Span)) :
      ∀ i ∈ (ops.map puts).reverse ++ y.emitted, holds i := by
    intro i member
    rcases List.mem_append.mp member with new | old
    · exact putsKept operations ops i (List.mem_reverse.mp new)
    · exact emitted i old
  unfold Yard.step at h
  cases role : p.role y.expecting with
  | operand o =>
      simp only [role] at h
      cases h
      intro i member
      rcases List.mem_cons.mp member with rfl | old
      · exact operand _ o role
      · exact emitted i old
  | opening b =>
      simp only [role] at h
      cases h
      exact emitted
  | closing b =>
      simp only [role] at h
      obtain ⟨ops, -, -, -, rfl⟩ := Yard.closeSplit h
      exact released ops
  | operation op =>
      simp only [role] at h
      cases h
      cases op with
      | unary u => exact emitted
      | binary c =>
          obtain ⟨ops, rest, -, -, -, result⟩ := Yard.operateSplit y c p.span
          rw [result]
          exact released ops
  | stray fault =>
      simp only [role] at h
      cases h

theorem stepsKept {holds : Postfix → Prop} (operations : ∀ op place, holds (.operation op place))
    {y y' : Yard} {ps : List Piece} (h : ps.foldlM Yard.step y = .ok y')
    (operands : ∀ p ∈ ps, ∀ expecting o, p.role expecting = .operand o →
      holds (.operand o p.span))
    (emitted : ∀ i ∈ y.emitted, holds i) : ∀ i ∈ y'.emitted, holds i := by
  induction ps generalizing y with
  | nil =>
      cases h
      exact emitted
  | cons p ps ih =>
      rw [List.foldlM_cons] at h
      obtain ⟨middle, first, later⟩ := bindIsOk.mp h
      have next := stepKept operations first (operands p List.mem_cons_self) emitted
      exact ih later (fun q member => operands q (List.mem_cons_of_mem p member)) next

theorem postfixKept {holds : Postfix → Prop} {ps : List Piece} {items : List Postfix}
    (h : toPostfix ps = .ok items)
    (operations : ∀ op place, holds (.operation op place))
    (operands : ∀ p ∈ ps, ∀ expecting o, p.role expecting = .operand o →
      holds (.operand o p.span)) : ∀ i ∈ items, holds i := by
  obtain ⟨last, ran, finished⟩ := bindIsOk.mp h
  obtain ⟨ops, -, rfl⟩ := Yard.finishSplit finished
  have emitted := stepsKept operations ran operands (by simp [Yard.empty])
  intro i member
  rcases List.mem_append.mp member with early | late
  · exact emitted i (List.mem_reverse.mp early)
  · exact putsKept operations ops i late

theorem postfixLegible {ps : List Piece} {items : List Postfix} (h : toPostfix ps = .ok items)
    (pieces : ∀ p ∈ ps, p.legible) : ∀ i ∈ items, i.legible :=
  postfixKept h (fun _ _ => trivial) fun p member _ _ role => roleLegible (pieces p member) role

theorem toExprLegible {o : Operand} {place : Span} {e : Expr} (h : o.toExpr place = .ok e)
    (operand : o.legible) : e.legible := by
  cases o with
  | number digits =>
      simp only [Operand.toExpr] at h
      split at h
      · cases h
      · rename_i fits
        cases h
        refine ⟨Text.numeralValue digits.toList, rfl, ?_⟩
        have shortest := Text.numeralShortest operand.1 operand.2
        rw [String.length_toList] at shortest
        omega
  | _ =>
      cases h
      exact operand

theorem applyLegible {item : Postfix} {operands result : List Expr}
    (h : applyItem operands item = .ok result) (legible : item.legible)
    (before : ∀ e ∈ operands, e.legible) : ∀ e ∈ result, e.legible := by
  unfold applyItem at h
  split at h
  · obtain ⟨e, read, same⟩ := bindIsOk.mp h
    cases same
    simpa using ⟨toExprLegible read legible, before⟩
  · split at h
    · cases h
      simp only [List.forall_mem_cons] at before ⊢
      exact ⟨⟨before.2.1, before.1⟩, before.2.2⟩
    · cases h
  · split at h
    · cases h
      simp only [List.forall_mem_cons] at before ⊢
      exact before
    · cases h

theorem foldLegible {items : List Postfix} {place : Option Span} {e : Expr}
    (h : fold items place = .ok e) (legible : ∀ i ∈ items, i.legible) : e.legible := by
  have stack {items : List Postfix} {operands result : List Expr}
      (applied : items.foldlM applyItem operands = .ok result)
      (each : ∀ i ∈ items, i.legible) (before : ∀ e ∈ operands, e.legible) :
      ∀ e ∈ result, e.legible := by
    induction items generalizing operands with
    | nil =>
        cases applied
        exact before
    | cons item rest ih =>
        rw [List.foldlM_cons] at applied
        obtain ⟨next, first, later⟩ := bindIsOk.mp applied
        have after := applyLegible first (each item List.mem_cons_self) before
        exact ih later (fun i member => each i (List.mem_cons_of_mem item member)) after
  obtain ⟨operands, applied, last⟩ := bindIsOk.mp h
  split at last
  · cases last
    exact stack applied legible (by simp) e List.mem_cons_self
  · cases last

theorem assembleLegible {qs : List Piece} {e : Expr} (h : assemble qs = .ok e)
    (pieces : ∀ q ∈ qs, q.legible) : e.legible := by
  obtain ⟨items, root, put, folded, rfl⟩ := assembleOk.mp h
  exact settledLegible (foldLegible folded (postfixLegible put pieces)) _

def ReadsLegible (parse : List Piece → Parsed Expr) : Prop :=
  ∀ ps e, parse ps = .ok e → (∀ p ∈ ps, p.legible) → e.legible

theorem argumentsLegible {parse : List Piece → Parsed Expr} (reads : ReadsLegible parse)
    {inside : List Piece} {args : List Expr} (h : parseArguments parse inside = .ok args)
    (pieces : ∀ p ∈ inside, p.legible) : legibleAll args := by
  unfold parseArguments at h
  split at h
  · cases h
    trivial
  · refine legibleEach.mpr fun e member => ?_
    obtain ⟨part, found, read⟩ := mapMFrom h e member
    exact reads part e read fun p kept => pieces p (splitTopPart found kept)

theorem Called.legible {parse : List Piece → Parsed Expr} (reads : ReadsLegible parse)
    {ps qs : List Piece} (h : Called parse ps qs) (pieces : ∀ p ∈ ps, p.legible) :
    ∀ q ∈ qs, q.legible := by
  induction h with
  | nil => exact pieces
  | @call f place opener closer inside after qs args _ _ _ read _ ih =>
      have name : f.legible false := pieces (.name f place) List.mem_cons_self
      have inner := argumentsLegible reads read fun p member => pieces p (by simp [member])
      intro q member
      rcases List.mem_cons.mp member with rfl | later
      · exact ⟨name, inner⟩
      · exact ih (fun p kept => pieces p (by simp [kept])) q later
  | other _ _ ih =>
      intro q member
      rcases List.mem_cons.mp member with rfl | later
      · exact pieces q List.mem_cons_self
      · exact ih (fun p kept => pieces p (List.mem_cons_of_mem _ kept)) q later

theorem conditionalLegible {α : Type} [Lexical α] {legible : α → Prop}
    {parse : List α → Parsed Expr}
    (reads : ∀ as e, parse as = .ok e → (∀ a ∈ as, legible a) → e.legible) {a : α}
    {rest : List α} {e : Expr} (h : parseConditional parse a rest = .ok e)
    (parts : ∀ a ∈ rest, legible a) : e.legible := by
  obtain ⟨condition, more, ifTrue, ifFalse, c, t, f, cut, cut', -, first, second, third, rfl⟩ :=
    parseConditionalOk.mp h
  obtain ⟨thenWord, -, rfl⟩ := cutAtKeywordFound cut
  obtain ⟨elseWord, -, rfl⟩ := cutAtKeywordFound cut'
  exact ⟨reads _ _ first fun a member => parts a (by simp [member]),
    reads _ _ second fun a member => parts a (by simp [member]),
    reads _ _ third fun a member => parts a (by simp [member])⟩

theorem parseArgumentLegible (limit : Nat) : ReadsLegible (parseArgument limit) := by
  induction limit with
  | zero =>
      intro ps e h
      cases h
  | succ limit ih =>
      intro ps e h pieces
      obtain ⟨p, rest, rfl, ⟨-, read⟩ | ⟨-, qs, called, assembled⟩⟩ := parseArgumentOk h
      · exact conditionalLegible ih read fun q member => pieces q (List.mem_cons_of_mem p member)
      · exact assembleLegible assembled (called.legible ih pieces)

theorem parseValueLegible {limit : Nat} {ts : List Token} {e : Expr}
    (h : parseValue limit ts = .ok e) (proper : ∀ t ∈ ts, t.proper) : e.legible := by
  induction limit generalizing ts e with
  | zero => cases h
  | succ limit ih =>
      obtain ⟨t, rest, rfl, ⟨-, read⟩ | ⟨-, ps, qs, made, called, assembled⟩⟩ := parseValueOk h
      · exact conditionalLegible (fun _ _ => ih) read fun t' member =>
          proper t' (List.mem_cons_of_mem t member)
      · have pieces := toPiecesLegible made proper
        exact assembleLegible assembled (called.legible (parseArgumentLegible limit) pieces)

end Trees

section Statements

theorem parametersLegible {inside : List Token} {params : List Name}
    (h : parseParameters inside = .ok params) (proper : ∀ t ∈ inside, t.proper) :
    ∀ n ∈ params, n.legible false := by
  unfold parseParameters at h
  split at h
  · cases h
    simp
  · intro n member
    obtain ⟨part, found, read⟩ := mapMFrom h n member
    exact parseNameLegible read fun t kept => proper t (splitTopPart found kept)

theorem membersLegible {inside : List Token} {members : List Expr}
    (h : parseMembers inside = .ok members) (proper : ∀ t ∈ inside, t.proper) :
    legibleAll members := by
  unfold parseMembers at h
  split at h
  · cases h
    trivial
  · refine legibleEach.mpr fun e member => ?_
    obtain ⟨part, found, read⟩ := mapMFrom h e member
    exact parseValueLegible read fun t kept => proper t (splitTopPart found kept)

theorem definitionLegible {signature body : List Token} {d : FunctionDefinition}
    (h : parseFunctionDefinition signature body = .ok d)
    (front : ∀ t ∈ signature, t.proper) (back : ∀ t ∈ body, t.proper) :
    (Statement.functionDefinition d).legible := by
  unfold parseFunctionDefinition at h
  split at h
  · cases h
  · rename_i name opener rest found
    obtain ⟨-, rfl⟩ := cutAtFound found
    split at h
    · cases h
    · rename_i inside closer after cut
      obtain ⟨rfl, -, -⟩ := splitClosingFound cut
      obtain ⟨_, -, h⟩ := bindIsOk.mp h
      split at h
      · cases h
      · obtain ⟨n, named, h⟩ := bindIsOk.mp h
        obtain ⟨params, listed, h⟩ := bindIsOk.mp h
        split at h
        · cases h
        · rename_i distinct
          obtain ⟨e, read, same⟩ := bindIsOk.mp h
          cases same
          exact ⟨parseNameLegible named fun t member => front t (by simp [member]),
            parametersLegible listed fun t member => front t (by simp [member]),
            Bool.eq_false_iff.mpr distinct, parseValueLegible read back, rfl⟩

theorem declarationLegible {name signature : List Token} {place : Option Span}
    {d : FunctionDeclaration} (h : parseFunctionDeclaration name signature place = .ok d)
    (proper : ∀ t ∈ name, t.proper) : d.name.legible false := by
  obtain ⟨n, named, h⟩ := bindIsOk.mp h
  split at h
  · cases h
  · obtain ⟨_, -, h⟩ := bindIsOk.mp h
    obtain ⟨_, -, same⟩ := bindIsOk.mp h
    cases same
    exact parseNameLegible named proper

theorem valueDeclarationLegible {name value : List Token} {s : Statement}
    (h : parseValueDeclaration name value = .ok s) (front : ∀ t ∈ name, t.proper)
    (back : ∀ t ∈ value, t.proper) : s.legible := by
  obtain ⟨n, named, h⟩ := bindIsOk.mp h
  have name := parseNameLegible named front
  split at h
  · split at h
    · cases h
    · rename_i opener rest _ inside closer after cut
      obtain ⟨rfl, -, -⟩ := splitClosingFound cut
      obtain ⟨_, -, h⟩ := bindIsOk.mp h
      split at h
      · cases h
      · obtain ⟨members, listed, same⟩ := bindIsOk.mp h
        cases same
        exact ⟨name, membersLegible listed fun t member => back t (by simp [member])⟩
  · obtain ⟨e, read, same⟩ := bindIsOk.mp h
    cases same
    exact ⟨name, parseValueLegible read back⟩

theorem putLegible {s : Statement} (h : s.legible) (place : Option Span) :
    (s.putAt place).legible := by
  cases s with
  | expression e => cases e <;> exact h
  | _ => exact h

theorem statementLegible {slice : List Token} {s : Statement} (h : parseStatement slice = .ok s)
    (proper : ∀ t ∈ slice, t.proper) : s.legible := by
  unfold parseStatement shape at h
  cases cut : cutAt isDecidingSign slice with
  | none =>
      simp only [cut] at h
      obtain ⟨e, value, same⟩ := bindIsOk.mp h
      cases same
      exact putLegible (s := .expression e) (parseValueLegible value proper) _
  | some parts =>
      obtain ⟨before, sign, after⟩ := parts
      obtain ⟨-, rfl⟩ := cutAtFound cut
      have front : ∀ t ∈ before, t.proper := fun t member => proper t (by simp [member])
      have back : ∀ t ∈ after, t.proper := fun t member => proper t (by simp [member])
      simp only [cut] at h
      by_cases colon : sign.word? = some .colon
      · simp only [if_pos colon] at h
        obtain ⟨d, read, same⟩ := bindIsOk.mp h
        cases same
        exact putLegible (s := .functionDeclaration d) (declarationLegible read front) _
      · simp only [if_neg colon] at h
        by_cases paren : mentions (.opening .paren) before = true
        · simp only [if_pos paren] at h
          obtain ⟨d, read, same⟩ := bindIsOk.mp h
          cases same
          exact putLegible (definitionLegible read front back) _
        · simp only [if_neg paren] at h
          obtain ⟨s', read, same⟩ := bindIsOk.mp h
          cases same
          exact putLegible (valueDeclarationLegible read front back) _

end Statements
end LiterateMath
