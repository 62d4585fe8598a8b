import LiterateMath.Proofs.Building.Values
import LiterateMath.Proofs.Printing.Gathering

/-! Statements built step by step. What a slice was classified by is there where its builder
splits it. -/
namespace LiterateMath.Building

open Lexical

section Classes

variable {w : Word} {before after : List Token} {t : Token}

theorem mentionsPieces (w : Word) (ts : List Token) :
    mentions w (pieces ts) = LiterateMath.mentions w ts := List.any_map

theorem mentionsIff {ts : List Token} :
    LiterateMath.mentions w ts = true ↔ ∃ t ∈ ts, t.word? = some w := by
  simp [LiterateMath.mentions]

theorem positionKnown {ts : List Token} (h : LiterateMath.mentions w ts = true) :
    ∃ n, position w (pieces ts) = .ok n := by
  obtain ⟨t, member, word⟩ := mentionsIff.mp h
  have found : ((pieces ts).findIdx? fun p => p.word? = some w).isSome := by
    rw [List.findIdx?_isSome, List.any_eq_true]
    exact ⟨.token t, List.mem_map_of_mem member, decide_eq_true word⟩
  obtain ⟨n, same⟩ := Option.isSome_iff_exists.mp found
  exact ⟨n, by rw [position, same]; rfl⟩

theorem findNothing (absent : ∀ a ∈ before, a.word? ≠ some w) :
    (pieces before).findIdx? (fun p => p.word? = some w) = none := by
  rw [List.findIdx?_eq_none_iff]
  intro p member
  obtain ⟨a, inside, rfl⟩ := List.mem_map.mp member
  exact decide_eq_false (absent a inside)

theorem findFirst (absent : ∀ a ∈ before, a.word? ≠ some w) (here : t.word? = some w) :
    (pieces (before ++ t :: after)).findIdx? (fun p => p.word? = some w) = some before.length := by
  simp [List.findIdx?_append, findNothing absent, List.findIdx?_cons, here]

theorem positionFirst (absent : ∀ a ∈ before, a.word? ≠ some w) (here : t.word? = some w) :
    position w (pieces (before ++ t :: after)) = .ok before.length := by
  rw [position, findFirst absent here]
  rfl

theorem positionPast (absent : ∀ a ∈ before, a.word? ≠ some w) (after : List Token) :
    position w (pieces (before ++ after))
      = (position w (pieces after)).map (· + before.length) := by
  rw [position, piecesAppend, List.findIdx?_append, findNothing absent, piecesLength, position]
  cases (pieces after).findIdx? fun p => p.word? = some w <;> rfl

theorem positionLater (absent : ∀ a ∈ before, a.word? ≠ some w) (other : t.word? ≠ some w)
    (later : LiterateMath.mentions w after = true) :
    ∃ n, position w (pieces (before ++ t :: after)) = .ok n ∧ before.length < n := by
  obtain ⟨n, found⟩ := positionKnown later
  have past : ∀ a ∈ before ++ [t], a.word? ≠ some w :=
    List.forall_mem_append.mpr ⟨absent, List.forall_mem_singleton.mpr other⟩
  have same := positionPast past after
  rw [found, List.append_assoc] at same
  exact ⟨_, same, by simp; omega⟩

def kindOfShape : Shape → Kind
  | .expression => .expression
  | .functionDeclaration .. => .functionDeclaration
  | .functionDefinition .. => .functionDefinition
  | .valueDeclaration .. => .valueDeclaration

theorem unmentioned {ts : List Token} (absent : ∀ t ∈ ts, t.word? ≠ some w) :
    LiterateMath.mentions w ts = false :=
  Bool.eq_false_iff.mpr fun h => by
    obtain ⟨t, member, word⟩ := mentionsIff.mp h
    exact absent t member word

theorem undecided {t : Token} (h : isDecidingSign t = false) :
    t.word? ≠ some .colon ∧ t.word? ≠ some .equals := by
  simpa [isDecidingSign] using h

theorem cutAtAbsent {α : Type} {test : α → Bool} {as : List α} (h : cutAt test as = none) :
    ∀ a ∈ as, test a = false := by
  induction as with
  | nil => simp
  | cons a rest ih =>
      unfold cutAt at h
      split at h
      · cases h
      · rename_i here
        exact List.forall_mem_cons.mpr
          ⟨Bool.eq_false_iff.mpr here, ih (Option.map_eq_none_iff.mp h)⟩

theorem mentionedLater (absent : ∀ a ∈ before, a.word? ≠ some w) (other : t.word? ≠ some w)
    (h : LiterateMath.mentions w (before ++ t :: after) = true) :
    LiterateMath.mentions w after = true := by
  obtain ⟨a, member, word⟩ := mentionsIff.mp h
  rcases List.mem_append.mp member with early | late
  · exact absurd word (absent a early)
  · rcases List.mem_cons.mp late with rfl | late
    · exact absurd word other
    · exact mentionsIff.mpr ⟨a, late, word⟩

theorem mentionedHere (here : t.word? = some w) :
    LiterateMath.mentions w (before ++ t :: after) = true :=
  mentionsIff.mpr ⟨t, by simp, here⟩

theorem colonDecides (absent : ∀ a ∈ before, a.word? ≠ some .colon ∧ a.word? ≠ some .equals)
    (here : t.word? = some .colon) : colonFirst (pieces (before ++ t :: after)) = .ok true := by
  rw [colonFirst, mentionsPieces, mentionsPieces, if_pos (mentionedHere here)]
  split
  · rename_i both
    have other : t.word? ≠ some .equals := by simp [here]
    obtain ⟨n, found, past⟩ := positionLater (fun a member => (absent a member).2) other
      (mentionedLater (fun a member => (absent a member).2) other both)
    rw [positionFirst (fun a member => (absent a member).1) here, found]
    exact congrArg Except.ok (decide_eq_true past)
  · rfl

theorem equalsDecides (absent : ∀ a ∈ before, a.word? ≠ some .colon ∧ a.word? ≠ some .equals)
    (here : t.word? = some .equals) : colonFirst (pieces (before ++ t :: after)) = .ok false := by
  rw [colonFirst, mentionsPieces, mentionsPieces]
  split
  · rename_i both
    have other : t.word? ≠ some .colon := by simp [here]
    obtain ⟨n, found, past⟩ := positionLater (fun a member => (absent a member).1) other
      (mentionedLater (fun a member => (absent a member).1) other both)
    rw [if_pos (mentionedHere here), positionFirst (fun a member => (absent a member).2) here,
      found]
    exact congrArg Except.ok (decide_eq_false (by omega))
  · rfl

theorem kindBuilt (slice : List Token) :
    kindOf (pieces slice) = .ok (kindOfShape (shape slice)) := by
  rw [shape]
  cases cut : cutAt isDecidingSign slice with
  | none =>
      have absent (t : Token) (member : t ∈ slice) := undecided (cutAtAbsent cut t member)
      have noColon := unmentioned fun t member => (absent t member).1
      have noEquals := unmentioned fun t member => (absent t member).2
      simp [kindOf, colonFirst, mentionsPieces, noColon, noEquals, kindOfShape]
  | some parted =>
      obtain ⟨before, sign, after⟩ := parted
      obtain ⟨decides, rfl⟩ := cutAtFound cut
      have absent (t : Token) (member : t ∈ before) := undecided (cutAtBefore cut t member)
      dsimp only
      by_cases colon : sign.word? = some .colon
      · rw [if_pos colon, kindOf, colonDecides absent colon]
        rfl
      · have equals : sign.word? = some .equals := by simpa [isDecidingSign, colon] using decides
        have signature : (pieces (before ++ sign :: after)).take before.length = pieces before := by
          rw [piecesAppend, List.take_left' (piecesLength before)]
        rw [if_neg colon, kindOf, equalsDecides absent equals, bindOk, if_neg (by simp),
          mentionsPieces, if_pos (mentionedHere equals),
          positionFirst (fun a member => (absent a member).2) equals, bindOk, signature,
          mentionsPieces]
        split <;> rfl

end Classes

section Parts

theorem listPieces {α : Type} {read : List Token → Parsed α} {read' : List Piece → Built α}
    (same : ∀ ts, read' (pieces ts) = lift (read ts)) (inside : List Token) :
    listOf read' (pieces inside) = lift (listWithin read inside) := by
  unfold listOf listWithin
  rw [piecesEmpty]
  split
  · rfl
  · rw [splitTopPieces, List.mapM_map]
    exact liftMapM fun part _ => same part

def setOfLetter : List Token → Option NumberSet
  | [.plain (.text letter) _] => NumberSet.all.find? fun s => String.singleton s.letter = letter
  | _ => none

theorem numberSetLettered (letters : List Token) (optional : List (List Token)) (place : Span) :
    numberSet? [.command "mathbb" [letters] optional place] = setOfLetter (normalize letters) := by
  simp only [numberSet?]
  rfl

theorem letteredBuilt (letters : List Token) : lettered letters = .ok (setOfLetter letters) := by
  match letters with
  | [] => rfl
  | first :: second :: rest =>
      have none_ : setOfLetter (first :: second :: rest) = none := by
        unfold setOfLetter
        split <;> simp_all
      rw [lettered, if_neg (by simp), none_]
      rfl
  | [.plain w place] => cases w <;> rfl
  | [.command ..] => rfl

theorem numberSetBuilt (role : String) (near : Option Span) (ts : List Token) :
    numberSet role near (pieces ts) = lift (parseNumberSet role near ts) := by
  unfold numberSet parseNumberSet
  rw [spanOfPieces]
  match ts with
  | [] => rfl
  | first :: second :: rest =>
      have none_ : numberSet? (first :: second :: rest) = none := by
        unfold numberSet?
        split <;> simp_all
      rw [if_neg (by simp), none_]
      rfl
  | [.plain w place] => cases w <;> rfl
  | [.command name required optional place] =>
      have one : (pieces [Token.command name required optional place]).length = 1 := rfl
      rw [if_pos one, piecesCons, itemFirst, bindOk]
      dsimp only
      by_cases named : name = "mathbb" ∧ required.length = 1
      · obtain ⟨rfl, single⟩ := named
        obtain ⟨letters, rfl⟩ := List.length_eq_one_iff.mp single
        rw [if_pos ⟨rfl, rfl⟩, itemFirst, bindOk, letteredBuilt, bindOk, numberSetLettered]
        cases setOfLetter (normalize letters) <;> rfl
      · rw [if_neg named]
        have none_ : numberSet? [.command name required optional place] = none := by
          unfold numberSet?
          split <;> simp_all
        rw [none_]
        rfl

end Parts

section Builders

variable {l : Limits} {slice : List Token}

theorem splitAtSign {w : Word} {before after : List Token} {sign : Token}
    (cut : cutAt isDecidingSign slice = some (before, sign, after)) (word : sign.word? = some w)
    (deciding : w = .colon ∨ w = .equals) : splitOnce w slice = some (before, after) := by
  obtain ⟨-, rfl⟩ := cutAtFound cut
  have absent : ∀ t ∈ before, decide (word? t = some w) = false := by
    intro t member
    have other := undecided (cutAtBefore cut t member)
    rcases deciding with rfl | rfl
    · exact decide_eq_false other.1
    · exact decide_eq_false other.2
  rw [splitOnce, cutAtFirst absent (decide_eq_true word)]
  rfl

theorem separatorFound (slice : List Token) : match shape slice with
    | .expression => True
    | .functionDeclaration name signature => splitOnce .colon slice = some (name, signature)
    | .functionDefinition signature body => splitOnce .equals slice = some (signature, body) ∧
        LiterateMath.mentions (.opening .paren) signature = true
    | .valueDeclaration name value => splitOnce .equals slice = some (name, value) := by
  rw [shape]
  cases cut : cutAt isDecidingSign slice with
  | none => trivial
  | some parted =>
      obtain ⟨before, sign, after⟩ := parted
      dsimp only
      by_cases colon : sign.word? = some .colon
      · rw [if_pos colon]
        exact splitAtSign cut colon (.inl rfl)
      · have equals : sign.word? = some .equals := by
          simpa [isDecidingSign, colon] using (cutAtFound cut).1
        rw [if_neg colon]
        split
        · rename_i same
          split at same <;> cases same
        · rename_i same
          split at same <;> cases same
        · rename_i same
          split at same
          · rename_i parenthesis
            cases same
            exact ⟨splitAtSign cut equals (.inr rfl), parenthesis⟩
          · cases same
        · rename_i same
          split at same
          · cases same
          · cases same
            exact splitAtSign cut equals (.inr rfl)

theorem declarationBuilt {name signature : List Token}
    (cut : splitOnce .colon slice = some (name, signature)) :
    functionDeclaration l (pieces slice) = lift (do
      return .functionDeclaration (← declarationWithin l name signature (spanOf slice))) := by
  rw [functionDeclaration, splitOncePieces, cut]
  simp only [Option.map_some, orBreak, bindOk, parseNameBuilt, splitOncePieces, spanOfPieces]
  rw [declarationWithin]
  cases LiterateMath.parseName l.names false name with
  | error e => rfl
  | ok n =>
      cases splitOnce .arrow signature with
      | none => rfl
      | some halves =>
          simp only [Option.map_some, liftOk, bindOk, numberSetBuilt]
          cases parseNumberSet "domain" (spanOf slice) halves.1 with
          | error e => rfl
          | ok domain => cases parseNumberSet "codomain" (spanOf slice) halves.2 <;> rfl

theorem bracketParts (name : List Token) (opener closer : Token) (inside after : List Token) :
    let signature := pieces (name ++ opener :: (inside ++ closer :: after))
    signature.take name.length = pieces name ∧
    between signature (name.length + 1) (name.length + 1 + inside.length) = pieces inside ∧
    signature.drop (name.length + 1 + inside.length + 1) = pieces after ∧
    (name.length + 1 + inside.length = signature.length - 1 ↔ after = []) := by
  refine ⟨?_, ?_, ?_, ?_⟩
  · rw [piecesAppend, List.take_left' (piecesLength name)]
  · exact betweenAt (pieces (name ++ [opener])) _ (pieces (closer :: after)) (by simp) (by simp)
      (by simp)
  · have shape : name ++ opener :: (inside ++ closer :: after)
        = (name ++ opener :: inside ++ [closer]) ++ after := by simp
    rw [shape, piecesAppend, List.drop_left' (by simp; omega)]
  · rw [piecesLength, ← List.length_eq_zero_iff]
    simp only [List.length_append, List.length_cons]
    omega

theorem parametersBuilt (name inside body : List Token) (place : Option Span) :
    (do
      let name ← parseName l.names false (pieces name)
      let params ← listOf (parseName l.names false) (pieces inside)
      if hasRepeat params then fail .repeatedParameter place
      else
        return Statement.functionDefinition
          ⟨name, params, ← parseValue l l.values (pieces body), [], none⟩)
    = lift (do
      return .functionDefinition (← (do
        let name ← LiterateMath.parseName l.names false name
        let params ← listWithin (LiterateMath.parseName l.names false) inside
        if hasRepeat params then malformed .repeatedParameter place
        return ⟨name, params, ← parseValueWithin l l.values body, [], none⟩ :
          Parsed FunctionDefinition))) := by
  rw [parseNameBuilt, listPieces (parseNameBuilt l.names false), valueBuilt]
  cases LiterateMath.parseName l.names false name with
  | error e => rfl
  | ok n =>
      cases listWithin (LiterateMath.parseName l.names false) inside with
      | error e => rfl
      | ok params =>
          simp only [liftOk, bindOk]
          cases hasRepeat params with
          | true => rfl
          | false => cases parseValueWithin l l.values body <;> rfl

theorem definitionBuilt {signature body : List Token}
    (cut : splitOnce .equals slice = some (signature, body))
    (parenthesis : LiterateMath.mentions (.opening .paren) signature = true) :
    functionDefinition l (pieces slice) = lift (do
      return .functionDefinition (← definitionWithin l signature body)) := by
  rw [functionDefinition, splitOncePieces, cut, definitionWithin]
  simp only [Option.map_some, orBreak, bindOk]
  cases found : cutAt (Token.opens .paren) signature with
  | none =>
      obtain ⟨t, member, word⟩ := mentionsIff.mp parenthesis
      cases (cutAtAbsent found t member).symm.trans (opensWord.mpr word)
  | some parted =>
      obtain ⟨name, opener, rest⟩ := parted
      obtain ⟨opens, rfl⟩ := cutAtFound found
      have absent : ∀ t ∈ name, t.word? ≠ some (.opening .paren) := fun t member word => by
        cases (cutAtBefore found t member).symm.trans (opensWord.mpr word)
      rw [findFirst absent (opensWord.mp opens)]
      dsimp only
      rw [bindOk, partnerPieces name (opensWord.mp opens) rest rfl rfl,
        itemPieces name opener rest rfl rfl]
      cases cut' : splitClosing 0 rest with
      | none => rfl
      | some parted =>
          obtain ⟨inside, closer, after⟩ := parted
          obtain ⟨rfl, -, -⟩ := splitClosingFound cut'
          obtain ⟨before, within, behind, last⟩ := bracketParts name opener closer inside after
          dsimp only [partnerOf]
          cases checkClosing (α := Token) .paren opener.span closer with
          | error e => rfl
          | ok =>
              rw [liftOk, bindOk, pureOk, bindOk, bindOk]
              dsimp only
              cases after with
              | nil =>
                  rw [if_neg (not_not.mpr (last.mpr rfl)), before, within, spanOfPieces]
                  exact parametersBuilt name inside body _
              | cons next after =>
                  have more : name.length + 1 + inside.length ≠
                      (pieces (name ++ opener :: (inside ++ closer :: next :: after))).length
                        - 1 :=
                    fun same => List.cons_ne_nil next after (last.mp same)
                  rw [if_pos more, behind, spanOfPieces]
                  rfl

theorem setBuilt (name : Name) {opener : Token}
    (opens : opener.word? = some (.opening .escapedBrace)) (rest : List Token) :
    setDeclaration l name (pieces (opener :: rest)) = lift (
      match splitClosing 0 rest with
      | none => malformed .setNeverClosed (some opener.span)
      | some (inside, closer, after) => do
          checkClosing .escapedBrace opener.span closer
          if !after.isEmpty then malformed .afterSet (spanOf after)
          return Statement.setDeclaration name
            (← listWithin (parseValueWithin l l.values) inside) none) := by
  have found : partner (pieces (opener :: rest)) 0 = _ := partnerPieces [] opens rest rfl rfl
  rw [setDeclaration, found]
  cases cut : splitClosing 0 rest with
  | none => rfl
  | some parted =>
      obtain ⟨inside, closer, after⟩ := parted
      obtain ⟨rfl, -, -⟩ := splitClosingFound cut
      obtain ⟨-, within, behind, last⟩ := bracketParts [] opener closer inside after
      dsimp only [partnerOf, List.length_nil, List.nil_append] at within behind last ⊢
      cases checkClosing (α := Token) .escapedBrace opener.span closer with
      | error e => rfl
      | ok =>
          rw [liftOk, bindOk, pureOk, bindOk, bindOk]
          dsimp only
          cases after with
          | nil =>
              rw [if_neg (not_not.mpr (last.mpr rfl))]
              have within' :
                  between (pieces (opener :: (inside ++ [closer]))) 1 (0 + 1 + inside.length)
                    = pieces inside := within
              rw [within', listPieces (valueBuilt l l.values)]
              cases listWithin (parseValueWithin l l.values) inside <;> rfl
          | cons next after =>
              have more : 0 + 1 + inside.length
                  ≠ (pieces (opener :: (inside ++ closer :: next :: after))).length - 1 :=
                fun same => List.cons_ne_nil next after (last.mp same)
              rw [if_pos more, behind, spanOfPieces]
              rfl

theorem valueDeclarationBuilt {name value : List Token}
    (cut : splitOnce .equals slice = some (name, value)) :
    valueDeclaration l (pieces slice) = lift (valueDeclarationWithin l name value) := by
  rw [valueDeclaration, splitOncePieces, cut, valueDeclarationWithin]
  simp only [Option.map_some, orBreak, bindOk, parseNameBuilt, valueBuilt, piecesEmpty]
  cases LiterateMath.parseName l.names false name with
  | error e => rfl
  | ok n =>
      rw [liftOk, bindOk, bindOk]
      cases value with
      | nil =>
          rw [if_pos List.isEmpty_nil]
          dsimp only
          cases parseValueWithin l l.values [] <;> rfl
      | cons first rest =>
          rw [if_neg (by simp), piecesCons, itemFirst, bindOk, tokenWord, ← piecesCons]
          by_cases opens : first.word? = some (.opening .escapedBrace)
          · rw [if_pos opens, setBuilt n opens]
            rw [plainOf opens]
            rfl
          · rw [if_neg opens]
            split
            · rename_i same
              cases same
              exact absurd rfl opens
            · cases parseValueWithin l l.values (first :: rest) <;> rfl

end Builders

theorem buildReads (l : Limits) (slice : List Token) :
    build l slice = lift (parseStatementWithin l slice) := by
  have found := separatorFound slice
  rw [build, show slice.map Piece.token = pieces slice from rfl, kindBuilt, bindOk,
    parseStatementWithin, spanOfPieces]
  cases class_ : shape slice with
  | expression =>
      have builder : look (builders l) .expression = .ok fun stream => do
        return .expression (← parseValue l l.values stream) := rfl
      rw [kindOfShape, builder, bindOk]
      dsimp only
      rw [valueBuilt]
      cases parseValueWithin l l.values slice <;> rfl
  | functionDeclaration name signature =>
      have builder : look (builders l) .functionDeclaration = .ok (functionDeclaration l) := rfl
      rw [class_] at found
      rw [kindOfShape, builder, bindOk, declarationBuilt found]
      dsimp only
      cases declarationWithin l name signature (spanOf slice) <;> rfl
  | functionDefinition signature body =>
      have builder : look (builders l) .functionDefinition = .ok (functionDefinition l) := rfl
      rw [class_] at found
      rw [kindOfShape, builder, bindOk, definitionBuilt found.1 found.2]
      dsimp only
      cases definitionWithin l signature body <;> rfl
  | valueDeclaration name value =>
      have builder : look (builders l) .valueDeclaration = .ok (valueDeclaration l) := rfl
      rw [class_] at found
      rw [kindOfShape, builder, bindOk, valueDeclarationBuilt found]
      dsimp only
      cases valueDeclarationWithin l name value <;> rfl

end LiterateMath.Building
