import LiterateMath.Proofs.Literals

/-! A backslash that names nothing. No pass drops it and no value, name or number set has it among
its words, so a slice that holds one is not read. -/
namespace LiterateMath

open Lexical

section Clean

variable {α : Type} [Lexical α]

def Clean (as : List α) : Prop := ∀ a ∈ as, word? a ≠ some .backslash

theorem cleanAppend {as bs : List α} : Clean (as ++ bs) ↔ Clean as ∧ Clean bs := by
  simp [Clean, or_imp, forall_and]

theorem cleanCons {a : α} {as : List α} :
    Clean (a :: as) ↔ word? a ≠ some .backslash ∧ Clean as := by
  simp [Clean]

theorem cleanWord {a : α} {w : Word} (is : word? a = some w) (other : w ≠ .backslash) :
    word? a ≠ some .backslash := by
  rw [is]
  exact fun same => other (Option.some.inj same)

theorem splitTopClean {w : Word} (other : w ≠ .backslash) {depth : Int} {as : List α}
    (parts : ∀ part ∈ splitTop w depth as, Clean part) : Clean as := by
  induction as generalizing depth with
  | nil => exact nofun
  | cons a rest ih =>
      rw [splitTop] at parts
      split at parts
      · rename_i cut
        exact cleanCons.mpr ⟨cleanWord cut.1 other, ih (List.forall_mem_cons.mp parts).2⟩
      · obtain ⟨first, others, found, -⟩ := splitTopFirst w (depth + depthStep a) rest
        rw [found] at parts
        obtain ⟨here, later⟩ := List.forall_mem_cons.mp parts
        obtain ⟨alone, first'⟩ := cleanCons.mp here
        refine cleanCons.mpr ⟨alone, @ih (depth + depthStep a) ?_⟩
        rw [found]
        exact List.forall_mem_cons.mpr ⟨first', later⟩

theorem listClean {β : Type} {parse : List α → Parsed β} {as : List α} {found : List β}
    (values : ∀ part b, parse part = .ok b → Clean part)
    (read : (splitTop .comma 0 as).mapM parse = .ok found) : Clean as := by
  refine @splitTopClean _ _ .comma nofun 0 as fun part member => ?_
  obtain ⟨b, first⟩ := mapMRead read part member
  exact values part b first

theorem conditionalClean {parse : List α → Parsed Expr} {a : α} {rest : List α} {e : Expr}
    (values : ∀ as e, parse as = .ok e → Clean as) (starts : startsConditional a = true)
    (read : parseConditional parse a rest = .ok e) : Clean (a :: rest) := by
  obtain ⟨condition, more, ifTrue, ifFalse, c, t, f, cut, cut', -, first, second, third, -⟩ :=
    parseConditionalOk.mp read
  obtain ⟨thenWord, word, rfl⟩ := cutAtKeywordFound cut
  obtain ⟨elseWord, word', rfl⟩ := cutAtKeywordFound cut'
  have starts : word? a = some (.keyword .ifWord) := of_decide_eq_true starts
  simp only [cleanCons, cleanAppend]
  exact ⟨cleanWord starts nofun, values _ _ first, cleanWord word nofun, values _ _ second,
    cleanWord word' nofun, values _ _ third⟩

end Clean

section Values

variable {parse : List Piece → Parsed Expr} {ps qs : List Piece}

theorem Called.clean (called : Called parse ps qs) (values : ∀ as e, parse as = .ok e → Clean as)
    (clean : Clean qs) : Clean ps := by
  induction called with
  | nil => exact clean
  | @call f place opener closer inside after qs args opens _ closes read _ ih =>
      have within : Clean inside := by
        unfold parseArguments at read
        split at read
        · rename_i empty
          rw [List.isEmpty_iff.mp empty]
          exact nofun
        · exact listClean values read
      simp only [cleanCons, cleanAppend]
      exact ⟨nofun, cleanWord opens nofun, within, cleanWord closes nofun,
        ih (cleanCons.mp clean).2⟩
  | other _ _ ih =>
      obtain ⟨first, later⟩ := cleanCons.mp clean
      exact cleanCons.mpr ⟨first, ih later⟩

theorem assembleClean {e : Expr} (assembled : assemble qs = .ok e) : Clean qs := by
  obtain ⟨items, root, put, -, -⟩ := assembleOk.mp assembled
  obtain ⟨last, ran, -⟩ := bindIsOk.mp put
  exact stepsStray ran fun _ => ⟨_, rfl⟩

theorem parseArgumentClean {limit : Nat} {e : Expr} (read : parseArgument limit ps = .ok e) :
    Clean ps := by
  induction limit generalizing ps e with
  | zero => cases read
  | succ limit ih =>
      obtain ⟨p, rest, rfl, ⟨starts, read⟩ | ⟨-, qs, called, assembled⟩⟩ := parseArgumentOk read
      · exact conditionalClean (fun _ _ => ih) starts read
      · exact called.clean (fun _ _ => ih) (assembleClean assembled)

theorem toPiecesClean {ts : List Token} (made : toPieces ts = .ok ps) (clean : Clean ps) :
    Clean ts := by
  intro t member word
  obtain ⟨before, after, rfl⟩ := List.append_of_mem member
  cases t with
  | command => cases word
  | plain w place =>
      cases word
      obtain ⟨as, bs, -, -, rfl⟩ := (toPiecesSeparated rfl rfl).mp made
      exact (cleanCons.mp (cleanAppend.mp clean).2).1 rfl

theorem parseValueClean {limit : Nat} {ts : List Token} {e : Expr}
    (read : parseValue limit ts = .ok e) : Clean ts := by
  induction limit generalizing ts e with
  | zero => cases read
  | succ limit ih =>
      cases ts with
      | nil => cases read
      | cons t rest =>
          rw [parseValue] at read
          split at read
          · rename_i starts
            exact conditionalClean (fun _ _ => ih) starts read
          · obtain ⟨ps, made, read⟩ := bindIsOk.mp read
            obtain ⟨qs, called, assembled⟩ := bindIsOk.mp read
            exact toPiecesClean made ((makeCallsCalled.mp called).clean
              (fun _ _ => parseArgumentClean) (assembleClean assembled))

end Values

section Statements

theorem parseNameClean {limit : Nat} {asSubscript : Bool} {ts : List Token} {n : Name}
    (read : parseName limit asSubscript ts = .ok n) : Clean ts := by
  intro t member word
  have within := parseNameWords read t member
  rw [Token.inName, show t.word? = _ from word] at within
  cases within

theorem numberSetClean {role : String} {near : Option Span} {ts : List Token} {s : NumberSet}
    (read : parseNumberSet role near ts = .ok s) : Clean ts := by
  unfold parseNumberSet numberSet? at read
  split at read
  · rename_i found
    split at found
    · exact cleanCons.mpr ⟨nofun, nofun⟩
    · exact cleanCons.mpr ⟨nofun, nofun⟩
    · cases found
  · cases read

theorem declarationClean {name signature : List Token} {place : Option Span}
    {d : FunctionDeclaration} (read : parseFunctionDeclaration name signature place = .ok d) :
    Clean name ∧ Clean signature := by
  obtain ⟨n, named, read⟩ := bindIsOk.mp read
  split at read
  · cases read
  · rename_i domain codomain cut
    obtain ⟨_, first, read⟩ := bindIsOk.mp read
    obtain ⟨_, second, -⟩ := bindIsOk.mp read
    obtain ⟨arrow, word, rfl⟩ := splitOnceFound cut
    exact ⟨parseNameClean named, cleanAppend.mpr ⟨numberSetClean first,
      cleanCons.mpr ⟨cleanWord word nofun, numberSetClean second⟩⟩⟩

theorem parametersClean {inside : List Token} {params : List Name}
    (read : parseParameters inside = .ok params) : Clean inside := by
  unfold parseParameters at read
  split at read
  · rename_i empty
    rw [List.isEmpty_iff.mp empty]
    exact nofun
  · exact listClean (fun _ _ => parseNameClean) read

theorem membersClean {inside : List Token} {members : List Expr}
    (read : parseMembers inside = .ok members) : Clean inside := by
  unfold parseMembers at read
  split at read
  · rename_i empty
    rw [List.isEmpty_iff.mp empty]
    exact nofun
  · exact listClean (fun _ _ => parseValueClean) read

theorem definitionClean {signature body : List Token} {d : FunctionDefinition}
    (read : parseFunctionDefinition signature body = .ok d) : Clean signature ∧ Clean body := by
  unfold parseFunctionDefinition at read
  split at read
  · cases read
  · rename_i name opener rest found
    obtain ⟨opens, rfl⟩ := cutAtFound found
    split at read
    · cases read
    · rename_i inside closer after cut
      obtain ⟨rfl, -, b, closes⟩ := splitClosingFound cut
      obtain ⟨_, -, read⟩ := bindIsOk.mp read
      split at read
      · cases read
      · rename_i nothing
        obtain rfl : after = [] := by simpa only [Bool.not_eq_true', Bool.not_eq_false,
          List.isEmpty_iff] using nothing
        obtain ⟨n, named, read⟩ := bindIsOk.mp read
        obtain ⟨params, listed, read⟩ := bindIsOk.mp read
        split at read
        · cases read
        · obtain ⟨e, value, -⟩ := bindIsOk.mp read
          simp only [cleanCons, cleanAppend]
          exact ⟨⟨parseNameClean named, cleanWord (tokenOpens opens) nofun, parametersClean listed,
            cleanWord closes nofun, nofun⟩, parseValueClean value⟩

theorem valueDeclarationClean {name value : List Token} {s : Statement}
    (read : parseValueDeclaration name value = .ok s) : Clean name ∧ Clean value := by
  obtain ⟨n, named, found⟩ := bindIsOk.mp read
  clear read
  refine ⟨parseNameClean named, ?_⟩
  split at found
  · rename_i opener rest
    split at found
    · cases found
    · rename_i inside closer after cut
      obtain ⟨rfl, -, b, closes⟩ := splitClosingFound cut
      obtain ⟨_, -, later⟩ := bindIsOk.mp found
      split at later
      · cases later
      · rename_i nothing
        obtain rfl : after = [] := by simpa only [Bool.not_eq_true', Bool.not_eq_false,
          List.isEmpty_iff] using nothing
        obtain ⟨members, listed, -⟩ := bindIsOk.mp later
        simp only [cleanCons, cleanAppend]
        exact ⟨nofun, membersClean listed, cleanWord closes nofun, nofun⟩
  · obtain ⟨e, value, -⟩ := bindIsOk.mp found
    exact parseValueClean value

theorem statementClean {slice : List Token} {s : Statement}
    (read : parseStatement slice = .ok s) : Clean slice := by
  unfold parseStatement shape at read
  cases cut : cutAt isDecidingSign slice with
  | none =>
      simp only [cut] at read
      obtain ⟨e, value, -⟩ := bindIsOk.mp read
      exact parseValueClean value
  | some parts =>
      obtain ⟨before, sign, after⟩ := parts
      obtain ⟨decides, rfl⟩ := cutAtFound cut
      have deciding : word? sign ≠ some .backslash := by
        rintro same
        rw [isDecidingSign, show sign.word? = _ from same] at decides
        cases decides
      have whole (sides : Clean before ∧ Clean after) : Clean (before ++ sign :: after) :=
        cleanAppend.mpr ⟨sides.1, cleanCons.mpr ⟨deciding, sides.2⟩⟩
      simp only [cut] at read
      by_cases colon : sign.word? = some .colon
      · simp only [if_pos colon] at read
        obtain ⟨d, declared, -⟩ := bindIsOk.mp read
        exact whole (declarationClean declared)
      · simp only [if_neg colon] at read
        by_cases paren : mentions (.opening .paren) before = true
        · simp only [if_pos paren] at read
          obtain ⟨d, defined, -⟩ := bindIsOk.mp read
          exact whole (definitionClean defined)
        · simp only [if_neg paren] at read
          obtain ⟨s', bound, -⟩ := bindIsOk.mp read
          exact whole (valueDeclarationClean bound)

end Statements

end LiterateMath
