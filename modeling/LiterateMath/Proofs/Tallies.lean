import LiterateMath.Proofs.Courses

/-! Documents submitted to one report, one after another, whatever comes of them. Each that is
malformed, or stops at a fault that can be put in words, adds one issue at the end, and no other
adds any. The one that brings the issues to their limit is interrupted, once its issue is stored,
and no other is interrupted for that. -/
namespace LiterateMath

inductive Manner where
  | check
  | run (limit : Nat) (strict : Bool)

structure Submission where
  document : Document
  manner : Manner

namespace Submission

def account (s : Submission) : Account :=
  match s.manner with
  | .check => s.document.check
  | .run limit strict => s.document.run strict limit

def issue? (s : Submission) : Option Issue := s.account.issue?

inductive Causes : Submission → Issue → Prop where
  | malformed {s : Submission} {fault : ParseFault} {place : Option Span}
      (failed : s.document.parse = .error (.malformed fault place)) :
      Causes s (s.document.confusion fault place)
  | stopped {d : Document} {limit : Nat} {strict : Bool} {p : Stop} {message : String}
      (stops : d.StopsAt limit strict p) (spoken : p.fault.message? = some message) :
      Causes ⟨d, .run limit strict⟩ (d.complaint p.fault message (p.before.length + 1) p.place)

variable {s : Submission} {issue : Issue}

theorem unreadAccount {failure : ParseFailure} (failed : s.document.parse = .error failure) :
    s.account = ⟨s.document, s.document.readingLog, .unread failure⟩ := by
  obtain ⟨d, manner⟩ := s
  cases manner with
  | check => simp only [account, Document.check, show d.parse = _ from failed]
  | run limit strict => exact leavesUnread failed

theorem causesIssue (causes : s.Causes issue) : s.issue? = some issue := by
  cases causes with
  | malformed failed =>
      rw [issue?, unreadAccount failed]
      rfl
  | stopped stops spoken => exact (stopIssue stops).trans (congrArg _ spoken)

theorem issueCauses (found : s.issue? = some issue) : s.Causes issue := by
  cases parsed : s.document.parse with
  | error failure =>
      rw [issue?, unreadAccount parsed] at found
      cases failure with
      | malformed fault place =>
          cases found
          exact .malformed parsed
      | literalTooLong | tooDeep => cases found
  | ok statements =>
      obtain ⟨d, manner⟩ := s
      replace parsed : d.parse = .ok statements := parsed
      cases manner with
      | check =>
          have checked : d.check.issue? = some issue := found
          simp [Document.check, parsed, Account.issue?, Account.trouble?] at checked
      | run limit strict =>
          have told : (d.run strict limit).issue? = some issue := found
          rcases runCases limit (Session.fresh strict) statements with ⟨env, lines, ran⟩ | stopped
          · simp [Document.run, parsed, Account.issue?, Account.trouble?, ranRuns ran] at told
          · obtain ⟨before, failing, after, env, lines, fault, rfl, ran, failed⟩ := stopped
            obtain ⟨place, stops⟩ := stopsAt parsed ran failed
            have told := (stopIssue stops).symm.trans told
            obtain ⟨message, spoken, rfl⟩ := Option.map_eq_some_iff.mp told
            exact .stopped stops spoken

theorem issueIff : s.issue? = some issue ↔ s.Causes issue := ⟨issueCauses, causesIssue⟩

end Submission

namespace Report

def receiveAll (r : Report) : List Submission → Report × List (Option Interruption)
  | [] => (r, [])
  | s :: rest =>
      let received := r.receive s.account
      let more := received.1.receiveAll rest
      (more.1, received.2 :: more.2)

theorem receiveStores (r : Report) (a : Account) :
    (r.receive a).1 = { r with issues := r.issues ++ a.issue?.toList } := by
  unfold receive
  cases a.issue? <;> simp [add]

theorem receiveInterrupts (r : Report) (a : Account) :
    (r.receive a).2 = some .tooManyIssues ↔
      a.issue?.isSome = true ∧ r.issues.length + 1 = r.maxIssues := by
  have otherwise : a.interruption? ≠ some .tooManyIssues := by
    unfold Account.interruption?
    split
    · rename_i failure _
      cases failure <;> simp [ParseFailure.interruption?]
    · split <;> simp
  unfold receive
  cases a.issue? with
  | none => simpa using otherwise
  | some i => simp [add]

variable {r : Report}

theorem receiveAllStores (submissions : List Submission) : (r.receiveAll submissions).1
    = { r with issues := r.issues ++ submissions.filterMap Submission.issue? } := by
  induction submissions generalizing r with
  | nil => simp [receiveAll]
  | cons s rest ih =>
      rw [receiveAll, ih, receiveStores, List.filterMap_cons]
      cases found : s.issue? with
      | none => simp [show s.account.issue? = none from found]
      | some i => simp [show s.account.issue? = some i from found]

theorem receiveAllAppend (before after : List Submission) :
    r.receiveAll (before ++ after) = (((r.receiveAll before).1.receiveAll after).1,
      (r.receiveAll before).2 ++ ((r.receiveAll before).1.receiveAll after).2) := by
  induction before generalizing r with
  | nil => rfl
  | cons s rest ih => simp only [List.cons_append, receiveAll, ih]

theorem receiveAllLength (submissions : List Submission) :
    (r.receiveAll submissions).2.length = submissions.length := by
  induction submissions generalizing r with
  | nil => rfl
  | cons s rest ih => simp only [receiveAll, List.length_cons, ih]

theorem interruptionAt (before : List Submission) (s : Submission) (after : List Submission) :
    (r.receiveAll (before ++ s :: after)).2[before.length]?
      = some ((r.receiveAll before).1.receive s.account).2 := by
  rw [receiveAllAppend, List.getElem?_append_right (Nat.le_of_eq (receiveAllLength before)),
    receiveAllLength, Nat.sub_self]
  rfl

theorem issuesTallied (maxIssues : Nat) :
    (∀ (s : Submission) (issue : Issue), s.issue? = some issue ↔ s.Causes issue) ∧
    (∀ submissions : List Submission, ((fresh maxIssues).receiveAll submissions).1.issues
      = submissions.filterMap Submission.issue?) ∧
    ∀ (before : List Submission) (s : Submission) (after : List Submission),
      let held := ((fresh maxIssues).receiveAll (before ++ [s])).1.issues
      held = ((fresh maxIssues).receiveAll before).1.issues ++ s.issue?.toList ∧
      (((fresh maxIssues).receiveAll (before ++ s :: after)).2[before.length]?
          = some (some .tooManyIssues) ↔
        s.issue?.isSome = true ∧ held.length = maxIssues) := by
  refine ⟨fun s issue => Submission.issueIff, fun submissions => ?_, fun before s after => ?_⟩
  · rw [receiveAllStores]
    rfl
  · intro held
    have stored : held = ((fresh maxIssues).receiveAll before).1.issues ++ s.issue?.toList := by
      simp only [held, receiveAllAppend, receiveAll, receiveStores]
      rfl
    have limit : ((fresh maxIssues).receiveAll before).1.maxIssues = maxIssues := by
      rw [receiveAllStores]
      rfl
    refine ⟨stored, ?_⟩
    rw [interruptionAt, Option.some_inj, receiveInterrupts, limit, stored]
    refine and_congr_right fun told => ?_
    obtain ⟨i, found⟩ := Option.isSome_iff_exists.mp told
    simp [show s.issue? = some i from found]

end Report
end LiterateMath
