import LiterateMath.Proofs.Building.Statements
import LiterateMath.Proofs.Literals

/-! How the building of a statement ends. Nothing that is taken for granted on the way fails, and
whatever a slice holds, there is a depth within which all of it is built. -/
namespace LiterateMath.Building

inductive Ends (slice : List Token) : Parsed Statement → Prop where
  | statement (s : Statement) : Ends slice (.ok s)
  | fault (f : ParseFault) (place : Option Span) : Ends slice (malformed f place)
  | longLiteral {digits : String} (present : Word.number digits ∈ tokenWords slice)
      (long : longestLiteral < digits.length) : Ends slice (.error .literalTooLong)

structure Covers (l : Limits) (slice : List Token) : Prop where
  values : bulk slice < l.values
  commands : nesting slice < l.commands
  names : bulk slice < l.names

def enough (slice : List Token) : Limits := ⟨bulk slice + 1, nesting slice + 1, bulk slice + 1⟩

theorem enoughCovers (slice : List Token) : Covers (enough slice) slice :=
  ⟨Nat.lt_succ_self _, Nat.lt_succ_self _, Nat.lt_succ_self _⟩

section Whole

variable {l m : Limits} {slice : List Token}

theorem Covers.shallow (h : Covers l slice) : parseStatementWithin l slice ≠ .error .tooDeep := by
  have others : FailsOnly (· ≠ .tooDeep) (parseStatementWithin l slice) :=
    parseStatementFails (fun _ _ => nofun) ⟨.inr h.values, .inr h.commands, .inr h.names⟩
      (.inl nofun)
  exact fun deep => others _ deep rfl

theorem Covers.ends (h : Covers l slice) : Ends slice (parseStatementWithin l slice) := by
  cases outcome : parseStatementWithin l slice with
  | ok s => exact .statement s
  | error failure =>
      cases failure with
      | malformed f place => exact .fault f place
      | tooDeep => exact absurd outcome h.shallow
      | literalTooLong =>
          by_contra none
          have others : FailsOnly (· ≠ .literalTooLong) (parseStatementWithin l slice) :=
            parseStatementFails (fun _ _ => nofun)
              ⟨.inr h.values, .inr h.commands, .inr h.names⟩
              (.inr (shortSlice fun ⟨_, present, long⟩ => none (.longLiteral present long)))
          exact others _ outcome rfl

theorem Covers.whole (h : Covers m slice) (l : Limits) :
    Shallower (parseStatementWithin l slice) (parseStatementWithin m slice) := by
  let n : Limits := ⟨max l.values m.values, max l.commands m.commands, max l.names m.names⟩
  have below : Shallower (parseStatementWithin l slice) (parseStatementWithin n slice) :=
    parseStatementShallower ⟨Nat.le_max_left _ _, Nat.le_max_left _ _, Nat.le_max_left _ _⟩ slice
  have above : Shallower (parseStatementWithin m slice) (parseStatementWithin n slice) :=
    parseStatementShallower ⟨Nat.le_max_right _ _, Nat.le_max_right _ _, Nat.le_max_right _ _⟩
      slice
  rwa [above.same h.shallow]

end Whole

/-- Nothing that building takes for granted ever fails. It ends with a statement, with a fault or
at a literal that is too long; limits may only keep it from going so deep, and those that cover
the slice do not. -/
theorem buildingNeverBreaks (slice : List Token) :
    (∀ l b, build l slice ≠ .error (.breakage b)) ∧
    ∃ outcome, Ends slice outcome ∧
      (∀ l, build l slice = tooDeep ∨ build l slice = lift outcome) ∧
      (∀ l, Covers l slice → build l slice = lift outcome) ∧
      build .standard slice = lift (parseStatement slice) := by
  have covered := enoughCovers slice
  refine ⟨fun l b broken => ?_, _, covered.ends, fun l => ?_, fun l covers => ?_, ?_⟩
  · rw [buildReads] at broken
    cases outcome : parseStatementWithin l slice <;> rw [outcome] at broken <;> cases broken
  · rw [buildReads]
    exact (covered.whole l).imp (congrArg lift) (congrArg lift)
  · rw [buildReads, (covered.whole l).same covers.shallow]
  · rw [buildReads, parseStatementStandard]

theorem halfIsBuilt :
    let half : List Token := [.command "frac" [[.plain (.number "1") ⟨6, 7⟩],
      [.plain (.number "2") ⟨9, 10⟩]] [] ⟨0, 11⟩]
    let small : Limits := ⟨13, 2, 13⟩
    Covers small half ∧ build small half = .ok (.expression (.binary (.operator .division)
      (.literal (.integer 1) (some ⟨6, 7⟩)) (.literal (.integer 2) (some ⟨9, 10⟩))
      (some ⟨0, 11⟩))) := by
  intro half small
  obtain ⟨-, outcome, -, -, covered, standard⟩ := buildingNeverBreaks half
  have covers : Covers small half := ⟨by decide, by decide, by decide⟩
  have ample : Covers .standard half := ⟨by decide, by decide, by decide⟩
  have read : parseStatement half = .ok (.expression (.binary (.operator .division)
      (.literal (.integer 1) (some ⟨6, 7⟩)) (.literal (.integer 2) (some ⟨9, 10⟩))
      (some ⟨0, 11⟩))) := by cbv
  have same : build small half = build .standard half :=
    (covered small covers).trans (covered .standard ample).symm
  exact ⟨covers, same.trans (standard.trans (congrArg lift read))⟩

end LiterateMath.Building
