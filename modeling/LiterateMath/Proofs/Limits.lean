import LiterateMath.Proofs.Printing.Legible

/-! Reading under any limits. A lower limit may only make a reading go too deep, and for every
slice there are limits under which it does not: what is left to read gets smaller at every
level, once a command counts for all that it is spelled out to. -/
namespace LiterateMath

open Lexical

def Shallower {α : Type} (r s : Parsed α) : Prop := r = .error .tooDeep ∨ r = s

namespace Shallower

variable {α β : Type} {r s : Parsed α}

theorem refl (r : Parsed α) : Shallower r r := .inr rfl

theorem deep (s : Parsed α) : Shallower (.error .tooDeep) s := .inl rfl

theorem bind {f g : α → Parsed β} (h : Shallower r s) (next : ∀ a, Shallower (f a) (g a)) :
    Shallower (r >>= f) (s >>= g) := by
  obtain rfl | rfl := h
  · exact deep _
  · cases r with
    | ok a => exact next a
    | error fault => exact refl _

theorem mapM {f g : α → Parsed β} (each : ∀ a, Shallower (f a) (g a)) (as : List α) :
    Shallower (as.mapM f) (as.mapM g) := by
  induction as with
  | nil => exact refl _
  | cons a rest ih =>
      rw [List.mapM_cons, List.mapM_cons]
      exact (each a).bind fun b => ih.bind fun bs => refl _

theorem read {a : α} (h : Shallower r s) (ok : r = .ok a) : s = .ok a := by
  obtain rfl | rfl := h
  · cases ok
  · exact ok

theorem same (h : Shallower r s) (shallow : r ≠ .error .tooDeep) : r = s := h.resolve_left shallow

end Shallower

structure Limits where
  values : Nat
  commands : Nat
  names : Nat

def Limits.standard : Limits := ⟨valueDepth, spelledDepth, subscriptDepth⟩

section Reading

def gatherNamesWithin (limit : Nat) : List Token → Parsed (List Piece)
  | [] => .ok []
  | t :: rest =>
      if startsName t then
        match _h : takeSubscripts rest with
        | .error e => .error e
        | .ok (subs, after) => do
            let name ← parseName limit false (t :: subs)
            let last := (t :: subs).getLast (List.cons_ne_nil t subs)
            return .name name (t.span.through last.span) :: (← gatherNamesWithin limit after)
      else do return .token t :: (← gatherNamesWithin limit rest)
termination_by ts => ts.length
decreasing_by
  · have := takeSubscriptsLength _h
    simp only [List.length_cons]
    omega
  · simp

def toPiecesWithin (l : Limits) (ts : List Token) : Parsed (List Piece) := do
  gatherNamesWithin l.names (joinReals (← lowerCommands l.commands ts))

def parseValueWithin (l : Limits) : (limit : Nat) → List Token → Parsed Expr
  | 0, _ => .error .tooDeep
  | _ + 1, [] => malformed .valueMissing none
  | limit + 1, t :: rest =>
      if startsConditional t then parseConditional (parseValueWithin l limit) t rest
      else do assemble (← makeCalls (parseArgument limit) (← toPiecesWithin l (t :: rest)))

def declarationWithin (l : Limits) (name signature : List Token) (place : Option Span) :
    Parsed FunctionDeclaration := do
  let name ← parseName l.names false name
  match splitOnce .arrow signature with
  | none => malformed .declarationForm place
  | some (domain, codomain) =>
      let domain ← parseNumberSet "domain" place domain
      let codomain ← parseNumberSet "codomain" place codomain
      return ⟨name, domain, codomain, none⟩

def listWithin {α : Type} (read : List Token → Parsed α) (inside : List Token) : Parsed (List α) :=
  if inside.isEmpty then .ok [] else (splitTop .comma 0 inside).mapM read

def definitionWithin (l : Limits) (signature body : List Token) : Parsed FunctionDefinition :=
  match cutAt (Token.opens .paren) signature with
  | none => malformed .parametersNeverClosed (signature.getLast?.map Token.span)
  | some (name, opener, rest) =>
      match splitClosing 0 rest with
      | none => malformed .parametersNeverClosed (some opener.span)
      | some (inside, closer, after) => do
          checkClosing .paren opener.span closer
          if !after.isEmpty then malformed .afterParameters (spanOf after)
          let name ← parseName l.names false name
          let params ← listWithin (parseName l.names false) inside
          if hasRepeat params then malformed .repeatedParameter (spanOf signature)
          return ⟨name, params, ← parseValueWithin l l.values body, [], none⟩

def valueDeclarationWithin (l : Limits) (name value : List Token) : Parsed Statement := do
  let name ← parseName l.names false name
  match value with
  | .plain (.opening .escapedBrace) opener :: rest =>
      match splitClosing 0 rest with
      | none => malformed .setNeverClosed (some opener)
      | some (inside, closer, after) => do
          checkClosing .escapedBrace opener closer
          if !after.isEmpty then malformed .afterSet (spanOf after)
          return .setDeclaration name (← listWithin (parseValueWithin l l.values) inside) none
  | value => return .valueDeclaration name (← parseValueWithin l l.values value) none

def parseStatementWithin (l : Limits) (slice : List Token) : Parsed Statement := do
  let statement ← match shape slice with
    | .expression => do pure (.expression (← parseValueWithin l l.values slice))
    | .functionDeclaration name signature => do
        pure (.functionDeclaration (← declarationWithin l name signature (spanOf slice)))
    | .functionDefinition signature body => do
        pure (.functionDefinition (← definitionWithin l signature body))
    | .valueDeclaration name value => valueDeclarationWithin l name value
  return statement.putAt (spanOf slice)

end Reading

section Standard

theorem gatherNamesStandard (ts : List Token) :
    gatherNamesWithin subscriptDepth ts = gatherNames ts := by
  fun_induction gatherNames ts with
  | case1 => rw [gatherNamesWithin]
  | case2 t rest starts fault taken =>
      rw [gatherNamesWithin, if_pos starts]
      split
      · rename_i fails
        cases taken.symm.trans fails
        rfl
      · rename_i found
        cases taken.symm.trans found
  | case3 t rest starts subs after taken ih =>
      rw [gatherNamesWithin, if_pos starts]
      split
      · rename_i fails
        cases taken.symm.trans fails
      · rename_i found
        cases taken.symm.trans found
        rw [ih]
  | case4 t rest other ih => rw [gatherNamesWithin, if_neg other, ih]

theorem toPiecesStandard (ts : List Token) : toPiecesWithin .standard ts = toPieces ts :=
  congrArg (lowerCommands spelledDepth ts >>= ·) (funext fun _ => gatherNamesStandard _)

theorem parseValueStandard (limit : Nat) : parseValueWithin .standard limit = parseValue limit := by
  induction limit with
  | zero => rfl
  | succ limit ih =>
      funext ts
      cases ts with
      | nil => rfl
      | cons t rest => rw [parseValueWithin, parseValue, ih, toPiecesStandard]

theorem parseStatementStandard (slice : List Token) :
    parseStatementWithin .standard slice = parseStatement slice := by
  have values : parseValueWithin .standard Limits.standard.values = parseValue valueDepth :=
    parseValueStandard valueDepth
  unfold parseStatementWithin parseStatement definitionWithin valueDeclarationWithin
  rw [values]
  rfl

end Standard

section Higher

theorem parseNameShallower {limit higher : Nat} (more : limit ≤ higher) (asSubscript : Bool)
    (ts : List Token) :
    Shallower (parseName limit asSubscript ts) (parseName higher asSubscript ts) := by
  induction limit generalizing higher asSubscript ts with
  | zero => exact .deep _
  | succ limit ih =>
      obtain ⟨higher, rfl⟩ : ∃ below, higher = below + 1 := ⟨higher - 1, by omega⟩
      rw [parseName, parseName]
      refine (Shallower.refl (stripBraces ts)).bind fun stripped => ?_
      split
      · exact .refl _
      · exact (ih (by omega) _ _).bind fun _ => (ih (by omega) _ _).bind fun _ => .refl _

theorem lowerTokenShallower {lower lower' : List Token → Parsed (List Token)}
    (more : ∀ ts, Shallower (lower ts) (lower' ts)) (t : Token) :
    Shallower (lowerToken lower t) (lowerToken lower' t) := by
  unfold lowerToken
  repeat' split
  all_goals first
    | exact .refl _
    | exact (more _).bind fun _ => .refl _
    | exact (more _).bind fun _ => (more _).bind fun _ => .refl _

theorem lowerCommandsShallower {limit higher : Nat} (more : limit ≤ higher) (ts : List Token) :
    Shallower (lowerCommands limit ts) (lowerCommands higher ts) := by
  induction limit generalizing higher ts with
  | zero => exact .deep _
  | succ limit ih =>
      obtain ⟨higher, rfl⟩ : ∃ below, higher = below + 1 := ⟨higher - 1, by omega⟩
      rw [lowerCommands, lowerCommands]
      have each := lowerTokenShallower fun inside =>
        ih (by omega : limit ≤ higher) (groupCode inside)
      exact (Shallower.mapM each ts).bind fun _ => .refl _

theorem gatherNamesShallower {limit higher : Nat} (more : limit ≤ higher) (ts : List Token) :
    Shallower (gatherNamesWithin limit ts) (gatherNamesWithin higher ts) := by
  fun_induction gatherNamesWithin limit ts with
  | case1 => exact .inr (by rw [gatherNamesWithin])
  | case2 t rest starts fault taken =>
      rw [gatherNamesWithin, if_pos starts]
      split
      · rename_i fails
        cases taken.symm.trans fails
        exact .refl _
      · rename_i found
        cases taken.symm.trans found
  | case3 t rest starts subs after taken ih =>
      rw [gatherNamesWithin, if_pos starts]
      split
      · rename_i fails
        cases taken.symm.trans fails
      · rename_i found
        cases taken.symm.trans found
        exact (parseNameShallower more _ _).bind fun _ => ih.bind fun _ => .refl _
  | case4 t rest other ih =>
      rw [gatherNamesWithin, if_neg other]
      exact ih.bind fun _ => .refl _

theorem parseConditionalShallower {α : Type} [Lexical α] {f g : List α → Parsed Expr}
    (more : ∀ as, Shallower (f as) (g as)) (first : α) (rest : List α) :
    Shallower (parseConditional f first rest) (parseConditional g first rest) :=
  (Shallower.refl (splitConditional first rest)).bind fun _ =>
    (more _).bind fun _ => (more _).bind fun _ => (more _).bind fun _ => .refl _

theorem makeCallsShallower {f g : List Piece → Parsed Expr} (more : ∀ ps, Shallower (f ps) (g ps))
    (ps : List Piece) : Shallower (makeCalls f ps) (makeCalls g ps) := by
  fun_induction makeCalls f ps with
  | case1 => exact .inr (by rw [makeCalls])
  | case2 f place opener rest opens cut =>
      rw [makeCalls, if_pos opens]
      split
      · exact .refl _
      · rename_i found
        cases cut.symm.trans found
  | case3 f place opener rest opens inside closer after cut ih =>
      rw [makeCalls.eq_def g]
      simp only [if_pos opens]
      split
      · rename_i none
        cases cut.symm.trans none
      · rename_i found
        cases cut.symm.trans found
        refine (Shallower.refl _).bind fun _ => Shallower.bind ?_ fun _ => ih.bind fun _ => .refl _
        unfold parseArguments
        split
        · exact .refl _
        · exact .mapM more _
  | case4 f place opener rest closed ih =>
      rw [makeCalls.eq_def g]
      simp only [if_neg closed]
      exact ih.bind fun _ => .refl _
  | case5 p rest shape ih =>
      rw [makeCalls]
      · exact ih.bind fun _ => .refl _
      · exact shape

theorem parseArgumentShallower {limit higher : Nat} (more : limit ≤ higher) (ps : List Piece) :
    Shallower (parseArgument limit ps) (parseArgument higher ps) := by
  induction limit generalizing higher ps with
  | zero => exact .deep _
  | succ limit ih =>
      obtain ⟨higher, rfl⟩ : ∃ below, higher = below + 1 := ⟨higher - 1, by omega⟩
      have below (qs : List Piece) := ih (by omega : limit ≤ higher) qs
      cases ps with
      | nil => exact .refl _
      | cons p rest =>
          rw [parseArgument, parseArgument]
          split
          · exact parseConditionalShallower below p rest
          · exact (makeCallsShallower below _).bind fun _ => .refl _

variable {l m : Limits}

theorem parseValueShallower {limit higher : Nat} (commands : l.commands ≤ m.commands)
    (names : l.names ≤ m.names) (more : limit ≤ higher) (ts : List Token) :
    Shallower (parseValueWithin l limit ts) (parseValueWithin m higher ts) := by
  induction limit generalizing higher ts with
  | zero => exact .deep _
  | succ limit ih =>
      obtain ⟨higher, rfl⟩ : ∃ below, higher = below + 1 := ⟨higher - 1, by omega⟩
      have more : limit ≤ higher := by omega
      cases ts with
      | nil => exact .refl _
      | cons t rest =>
          rw [parseValueWithin, parseValueWithin]
          split
          · exact parseConditionalShallower (ih more) t rest
          · have pieces : Shallower (toPiecesWithin l (t :: rest)) (toPiecesWithin m (t :: rest)) :=
              (lowerCommandsShallower commands _).bind fun _ => gatherNamesShallower names _
            exact pieces.bind fun _ =>
              (makeCallsShallower (parseArgumentShallower more) _).bind fun _ => .refl _

theorem listShallower {α : Type} {f g : List Token → Parsed α}
    (more : ∀ ts, Shallower (f ts) (g ts)) (inside : List Token) :
    Shallower (listWithin f inside) (listWithin g inside) := by
  unfold listWithin
  split
  · exact .refl _
  · exact .mapM more _

structure Limits.UpTo (l m : Limits) : Prop where
  values : l.values ≤ m.values
  commands : l.commands ≤ m.commands
  names : l.names ≤ m.names

theorem declarationShallower (more : l.UpTo m) (name signature : List Token)
    (place : Option Span) :
    Shallower (declarationWithin l name signature place)
      (declarationWithin m name signature place) := by
  refine (parseNameShallower more.names _ _).bind fun _ => ?_
  split <;> exact .refl _

theorem definitionShallower (more : l.UpTo m) (signature body : List Token) :
    Shallower (definitionWithin l signature body) (definitionWithin m signature body) := by
  have name (ts : List Token) := parseNameShallower more.names false ts
  have value := parseValueShallower more.commands more.names more.values body
  unfold definitionWithin
  split
  · exact .refl _
  · split
    · exact .refl _
    · refine (Shallower.refl _).bind fun _ => ?_
      dsimp only
      split
      · exact .inr rfl
      · refine (name _).bind fun _ => (listShallower name _).bind fun _ => ?_
        split
        · exact .inr rfl
        · exact value.bind fun _ => .refl _

theorem valueDeclarationShallower (more : l.UpTo m) (name value : List Token) :
    Shallower (valueDeclarationWithin l name value) (valueDeclarationWithin m name value) := by
  have read (ts : List Token) := parseValueShallower more.commands more.names more.values ts
  refine (parseNameShallower more.names _ _).bind fun _ => ?_
  split
  · split
    · exact .refl _
    · refine (Shallower.refl _).bind fun _ => ?_
      dsimp only
      split
      · exact .inr rfl
      · exact (listShallower read _).bind fun _ => .refl _
  · exact (read _).bind fun _ => .refl _

theorem parseStatementShallower (more : l.UpTo m) (slice : List Token) :
    Shallower (parseStatementWithin l slice) (parseStatementWithin m slice) := by
  unfold parseStatementWithin
  dsimp only
  split
  · exact (parseValueShallower more.commands more.names more.values _).bind fun _ => .refl _
  · exact (declarationShallower more _ _ _).bind fun _ => .refl _
  · exact (definitionShallower more _ _).bind fun _ => .refl _
  · exact (valueDeclarationShallower more _ _).bind fun _ => .refl _

end Higher

section Sizes

mutual

def Token.bulk : Token → Nat
  | .plain .. => 1
  | .command _ required optional _ => 10 + (groupsBulk required + groupsBulk optional)

def bulk : List Token → Nat
  | [] => 0
  | t :: rest => t.bulk + bulk rest

def groupsBulk : List (List Token) → Nat
  | [] => 0
  | g :: rest => bulk g + groupsBulk rest

end

theorem bulkSublist {as bs : List Token} (h : as.Sublist bs) : bulk as ≤ bulk bs := by
  induction h with
  | slnil => exact Nat.le_refl _
  | cons t _ ih => exact ih.trans (Nat.le_add_left _ _)
  | cons_cons t _ ih => exact Nat.add_le_add_left ih _

theorem nestingSublist {as bs : List Token} (h : as.Sublist bs) : nesting as ≤ nesting bs := by
  induction h with
  | slnil => exact Nat.le_refl _
  | cons t _ ih => exact ih.trans (Nat.le_max_right _ _)
  | cons_cons t _ ih => simp only [nesting]; omega

theorem dropCommentsSublist (inComment : Bool) (ts : List Token) :
    (dropComments inComment ts).Sublist ts := by
  induction ts generalizing inComment with
  | nil => exact .slnil
  | cons t rest ih =>
      rw [dropComments]
      split
      · exact (ih true).cons t
      · split
        · exact (ih true).cons t
        · exact (ih false).cons_cons t

theorem asKeywordSizes (t : Token) :
    (asKeyword t).bulk = t.bulk ∧ (asKeyword t).nesting = t.nesting := by
  unfold asKeyword
  split
  · split <;> simp [Token.bulk, Token.nesting]
  · exact ⟨rfl, rfl⟩

theorem groupCodeSizes (g : List Token) :
    bulk (groupCode g) ≤ bulk g ∧ nesting (groupCode g) ≤ nesting g := by
  have keywords (ts : List Token) :
      bulk (ts.map asKeyword) = bulk ts ∧ nesting (ts.map asKeyword) = nesting ts := by
    induction ts with
    | nil => exact ⟨rfl, rfl⟩
    | cons t rest ih => simp [bulk, nesting, ih, asKeywordSizes t]
  have kept : ((dropComments false g).filter fun t => !isWhitespace t).Sublist g :=
    List.filter_sublist.trans (dropCommentsSublist false g)
  obtain ⟨sameBulk, sameNesting⟩ := keywords ((dropComments false g).filter (!isWhitespace ·))
  exact ⟨sameBulk.le.trans (bulkSublist kept), sameNesting.le.trans (nestingSublist kept)⟩

theorem splitTopSublist {α : Type} [Lexical α] {w : Word} {depth : Int} {as part : List α}
    (member : part ∈ splitTop w depth as) : part.Sublist as := by
  obtain ⟨us, vs, same⟩ := (splitTopParted w depth as).stretch member
  rw [same]
  exact (List.sublist_append_left part vs).trans (List.sublist_append_right us _)

theorem stripBracesLength {ts stripped : List Token} (h : stripBraces ts = .ok stripped) :
    stripped.length ≤ ts.length := by
  fun_induction stripBraces ts with
  | case1 =>
      cases h
      exact Nat.le_refl _
  | case2 =>
      cases h
      exact Nat.le_refl _
  | case3 t rest _ inside closer after cut ih =>
      obtain ⟨-, -, h⟩ := bindIsOk.mp h
      have within := splitClosingLength cut
      split at h
      · have := ih h
        simp only [List.length_cons]
        omega
      · cases h
        exact Nat.le_refl _
  | case4 =>
      cases h
      exact Nat.le_refl _

theorem groupsBulkMember {g : List Token} {gs : List (List Token)} (member : g ∈ gs) :
    bulk g ≤ groupsBulk gs ∧ nesting g ≤ nestingGroups gs := by
  induction gs with
  | nil => cases member
  | cons first rest ih =>
      rw [groupsBulk, nestingGroups]
      rcases List.mem_cons.mp member with rfl | later
      · omega
      · have := ih later
        omega

theorem groupCodeSmaller {name : String} {required optional : List (List Token)} {place : Span}
    {g : List Token} (member : g ∈ required ++ optional) :
    bulk (groupCode g) + 10 ≤ (Token.command name required optional place).bulk ∧
      nesting (groupCode g) < (Token.command name required optional place).nesting := by
  have code := groupCodeSizes g
  rw [Token.bulk, Token.nesting]
  rcases List.mem_append.mp member with first | second
  · have := groupsBulkMember first
    omega
  · have := groupsBulkMember second
    omega

theorem bulkLength (ts : List Token) : ts.length ≤ bulk ts := by
  induction ts with
  | nil => exact Nat.le_refl 0
  | cons t rest ih =>
      have one : 1 ≤ t.bulk := by cases t <;> simp only [Token.bulk] <;> omega
      simp only [bulk, List.length_cons]
      omega

theorem lowerTokenLength {lower : List Token → Parsed (List Token)}
    (shorter : ∀ g out, lower g = .ok out → out.length ≤ bulk (groupCode g)) {t : Token}
    {out : List Token} (h : lowerToken lower t = .ok out) : out.length ≤ t.bulk := by
  cases t with
  | plain w place =>
      cases h
      split <;> simp [Token.bulk]
  | command name required optional place =>
      have group {g out : List Token} (member : g ∈ required ++ optional)
          (lowers : lower g = .ok out) : out.length ≤ bulk g :=
        (shorter g out lowers).trans (groupCodeSizes g).1
      simp only [lowerToken] at h
      split at h
      · split at h
        · obtain ⟨a, above, h⟩ := bindIsOk.mp h
          obtain ⟨b, below, same⟩ := bindIsOk.mp h
          cases same
          have := group (by simp) above
          have := group (by simp) below
          simp only [fraction, parenthesized, List.length_append, List.length_cons, List.length_nil,
            Token.bulk, groupsBulk]
          omega
        · cases h
      · split at h
        · split at h
          · obtain ⟨a, above, same⟩ := bindIsOk.mp h
            cases same
            have := group (by simp) above
            simp only [root, parenthesized, List.length_append, List.length_cons, List.length_nil,
              Token.bulk, groupsBulk]
            omega
          · obtain ⟨n, exponent, h⟩ := bindIsOk.mp h
            obtain ⟨a, above, same⟩ := bindIsOk.mp h
            cases same
            have := group (by simp) exponent
            have := group (by simp) above
            simp only [root, parenthesized, List.length_append, List.length_cons, List.length_nil,
              Token.bulk, groupsBulk]
            omega
          · cases h
        · cases h

theorem lowerLength {limit : Nat} {ts lowered : List Token}
    (h : lowerCommands limit ts = .ok lowered) : lowered.length ≤ bulk ts := by
  induction limit generalizing ts lowered with
  | zero => cases h
  | succ limit ih =>
      obtain ⟨parts, read, rfl⟩ := lowerOk.mp h
      have each := mapMEach read
      clear h read
      induction each with
      | nil => exact Nat.le_refl 0
      | cons first _ later =>
          have := lowerTokenLength (fun g out lowers => ih lowers) first
          simp only [List.flatten_cons, List.length_append, bulk]
          omega

theorem joinRealsLength (ts : List Token) : (joinReals ts).length ≤ ts.length := by
  fun_induction joinReals ts with
  | case1 whole first at_ fraction last rest ih =>
      simp only [List.length_cons]
      omega
  | case2 t rest _ ih =>
      simp only [List.length_cons]
      omega
  | case3 => exact Nat.le_refl 0

theorem gatherNamesLength {limit : Nat} {ts : List Token} {ps : List Piece}
    (h : gatherNamesWithin limit ts = .ok ps) : ps.length ≤ ts.length := by
  fun_induction gatherNamesWithin limit ts generalizing ps with
  | case1 =>
      cases h
      exact Nat.le_refl 0
  | case2 => cases h
  | case3 t rest starts subs after taken ih =>
      obtain ⟨name, -, h⟩ := bindIsOk.mp h
      obtain ⟨others, later, same⟩ := bindIsOk.mp h
      cases same
      have := takeSubscriptsLength taken
      have := ih later
      simp only [List.length_cons]
      omega
  | case4 t rest other ih =>
      obtain ⟨others, later, same⟩ := bindIsOk.mp h
      cases same
      have := ih later
      simp only [List.length_cons]
      omega

theorem toPiecesLength {l : Limits} {ts : List Token} {ps : List Piece}
    (h : toPiecesWithin l ts = .ok ps) : ps.length ≤ bulk ts := by
  obtain ⟨lowered, spelled, gathered⟩ := bindIsOk.mp h
  exact (gatherNamesLength gathered).trans ((joinRealsLength lowered).trans (lowerLength spelled))

end Sizes

end LiterateMath
