import Mathlib
import LiterateMath.Proofs.Places.Running
import LiterateMath.Proofs.Seams
import LiterateMath.Report.Account

/-! Documents one after another. If nothing of the first is left open, then the code of both is
the code of the first and the code of the second, and running it is running one and then the
other. -/
namespace LiterateMath

section Slices

theorem splitRegionsEnd (as bs : List Token) (place : Span) :
    splitRegions (as ++ .plain .regionEnd place :: bs) = splitRegions as ++ splitRegions bs := by
  induction as with
  | nil => rfl
  | cons a rest ih =>
      rw [List.cons_append, splitRegions, splitRegions, ih]
      split
      · rfl
      · obtain ⟨part, parts, found⟩ := List.exists_cons_of_ne_nil (splitRegionsNonempty rest)
        rw [found]
        rfl

theorem intoSlicesEnd (as bs : List Token) (place : Span) :
    intoSlices (as ++ .plain .regionEnd place :: bs) = intoSlices as ++ intoSlices bs := by
  have ends : normalize (as ++ .plain .regionEnd place :: bs)
      = normalize as ++ .plain .regionEnd place :: normalize bs := by
    simp [normalize, isWhitespace, Token.word?, asKeyword]
  simp only [slicesLooped, slicesOf, ends, splitRegionsEnd, List.flatMap_append,
    List.filter_append]

def EndsRegion (code : List Token) : Prop :=
  code = [] ∨ ∃ before place, code = before ++ [.plain .regionEnd place]

theorem intoSlicesAppend {code : List Token} (ends : EndsRegion code) (more : List Token) :
    intoSlices (code ++ more) = intoSlices code ++ intoSlices more := by
  obtain rfl | ⟨before, place, rfl⟩ := ends
  · rfl
  · have nothing : intoSlices [] = [] := rfl
    rw [List.append_assoc, List.singleton_append, intoSlicesEnd, intoSlicesEnd before [], nothing,
      List.append_nil]

theorem nextEndsRegion {s : Reader} {t : Token} (ended : (s.next t).1.opened = none) :
    (s.next t).2 = [] ∧ s.opened = none ∨ ∃ place, (s.next t).2 = [.plain .regionEnd place] := by
  obtain ⟨nothing, stays⟩ | ⟨o, -, -, same⟩ | same := nextCases s t
  · refine .inl ⟨nothing, ?_⟩
    cases opened : s.opened with
    | none => rfl
    | some o =>
        rw [stays o opened] at ended
        cases ended
  · rw [same] at ended
    cases ended
  · exact .inr ⟨t.span, by rw [same]⟩

theorem afterEndsRegion {s : Reader} {ts : List Token} (ended : (s.after ts).1.opened = none) :
    (s.after ts).2 = [] ∧ s.opened = none
      ∨ ∃ before place, (s.after ts).2 = before ++ [.plain .regionEnd place] := by
  induction ts generalizing s with
  | nil => exact .inl ⟨rfl, ended⟩
  | cons t rest ih =>
      simp only [Reader.after] at ended ⊢
      obtain ⟨nothing, outside⟩ | ⟨before, place, found⟩ := ih ended
      · rw [nothing, List.append_nil]
        obtain same | ⟨place, found⟩ := nextEndsRegion outside
        · exact .inl same
        · exact .inr ⟨[], place, found⟩
      · exact .inr ⟨(s.next t).2 ++ before, place, by rw [found, List.append_assoc]⟩

theorem codeEndsRegion {text : String} {code : List Token} (reads : codeTokens text = .ok code) :
    EndsRegion code := by
  rw [codeTokensCaptured] at reads
  split at reads
  · cases reads
  · obtain ⟨ended, rfl⟩ := filterOk.mp reads
    obtain ⟨nothing, -⟩ | found := afterEndsRegion ended
    · exact .inl nothing
    · exact .inr found

end Slices

section Running

theorem runAppend {limit : Nat} {s : Session} {statements : List Statement}
    (finishes : (s.run statements limit).failure = none) (more : List Statement) :
    s.run (statements ++ more) limit
      = ((s.run statements limit).session.run more limit).following
          (s.run statements limit).output := by
  induction statements generalizing s with
  | nil => rfl
  | cons statement rest ih =>
      cases done : statement.run limit s.strict s.env with
      | error fault =>
          rw [runFails done] at finishes
          cases finishes
      | ok result =>
          obtain ⟨env, line⟩ := result
          rw [runOk done] at finishes ⊢
          rw [List.cons_append, runOk done, ih finishes]
          simp [Run.following]

end Running

section Documents

variable {text : String} {code : List Token}

theorem codeTokensJoined (reads : codeTokens text = .ok code) (closed : GroupsClose text)
    (more : String) :
    codeTokens (text ++ "\n" ++ more) = (Relocation.shift (text.length + 1)).outcome
      (fun found => code ++ found.map (Token.moved (.shift (text.length + 1))))
      (codeTokens more) := by
  rw [codeTokensCaptured] at reads
  split at reads
  · cases reads
  · rename_i shallow
    obtain ⟨ended, rfl⟩ := filterOk.mp reads
    exact codeTokensLine closed (Nat.le_of_not_lt shallow) ended more

theorem statementsFurther (r : Relocation) (slices : List (List Token)) :
    (slices.map (List.map (Token.moved r))).mapM parseStatement
      = r.outcome (List.map (Statement.moved r)) (slices.mapM parseStatement) :=
  outcomeMapM fun slice _ => parseStatementMoved slice

theorem parseJoined {first second : List Statement} {path path' path'' : Option String}
    {more : String} (closed : GroupsClose text)
    (parsed : (⟨text, path⟩ : Document).parse = .ok first)
    (parsed' : (⟨more, path'⟩ : Document).parse = .ok second) :
    (⟨text ++ "\n" ++ more, path''⟩ : Document).parse
      = .ok (first ++ second.map (Statement.moved (.shift (text.length + 1)))) := by
  obtain ⟨code, reads, statements⟩ := bindIsOk.mp parsed
  obtain ⟨found, reads', statements'⟩ := bindIsOk.mp parsed'
  refine bindIsOk.mpr ⟨_, by rw [codeTokensJoined reads closed, reads', outcomeOk], ?_⟩
  rw [intoSlicesAppend (codeEndsRegion reads), intoSlicesMoved, List.mapM_append, statements,
    statementsFurther, statements']
  rfl

theorem runFurther (s : Session) (r : Relocation) (statements : List Statement) (limit : Nat) :
    (s.run (statements.map (Statement.moved r)) limit).moved .forget
      = (s.run statements limit).moved .forget := by
  rw [← sessionRunMoved, ← sessionRunMoved, List.map_map]
  simp only [Function.comp_def, Statement.forgetMoved]

/-- A document that leaves nothing open and one on the lines below it: code, slices and run of
the whole are those of the first and then those of the second. -/
theorem documentsCompose (reads : codeTokens text = .ok code) (closed : GroupsClose text)
    (more : String) :
    let further := Relocation.shift (text.length + 1)
    codeTokens (text ++ "\n" ++ more)
        = further.outcome (fun found => code ++ found.map (Token.moved further)) (codeTokens more)
      ∧ (∀ found, codeTokens more = .ok found →
          intoSlices (code ++ found.map (Token.moved further))
            = intoSlices code ++ (intoSlices found).map (List.map (Token.moved further)))
      ∧ ∀ first second : List Statement, ∀ path path' path'' : Option String,
          (⟨text, path⟩ : Document).parse = .ok first →
          (⟨more, path'⟩ : Document).parse = .ok second →
          ∃ statements, (⟨text ++ "\n" ++ more, path''⟩ : Document).parse = .ok statements
            ∧ ∀ (s : Session) (limit : Nat), (s.run first limit).failure = none →
              (s.run statements limit).moved .forget
                = (((s.run first limit).session.run second limit).following
                    (s.run first limit).output).moved .forget := by
  refine ⟨codeTokensJoined reads closed more, fun found _ => ?_, ?_⟩
  · rw [intoSlicesAppend (codeEndsRegion reads), intoSlicesMoved]
  · intro first second path path' path'' parsed parsed'
    refine ⟨_, parseJoined closed parsed parsed', fun s limit finishes => ?_⟩
    have same := runFurther (s.run first limit).session (.shift (text.length + 1)) second limit
    rw [runAppend finishes]
    exact congrArg (Run.following (s.run first limit).output) same

theorem widthThenHeight :
    let text := "\\emph\x7bw\x7d \\$(w=3\\$) % \\$("
    let more := "\\$(h=7-5\\$)"
    GroupsClose text ∧ ∃ statements,
      (⟨text ++ "\n" ++ more, none⟩ : Document).parse = .ok statements
        ∧ ((Session.fresh false).run statements).session.env.values
          = [(.text "h", .integer 2), (.text "w", .integer 3)] := by
  intro text more
  have reads : codeTokens text = .ok [.plain (.text "w") ⟨12, 13⟩, .plain .equals ⟨13, 14⟩,
      .plain (.number "3") ⟨14, 15⟩, .plain .regionEnd ⟨15, 18⟩] := by cbv
  have closed : GroupsClose text := by cbv
  have parsed : (⟨text, none⟩ : Document).parse = .ok [.valueDeclaration (.text "w")
      (.literal (.integer 3) (some ⟨14, 15⟩)) (some ⟨12, 15⟩)] := by cbv
  have parsed' : (⟨more, none⟩ : Document).parse = .ok [.valueDeclaration (.text "h")
      (.binary (.operator .subtraction) (.literal (.integer 7) (some ⟨5, 6⟩))
        (.literal (.integer 5) (some ⟨7, 8⟩)) (some ⟨5, 8⟩)) (some ⟨3, 8⟩)] := by cbv
  obtain ⟨statements, whole, same⟩ :=
    (documentsCompose reads closed more).2.2 _ _ none none none parsed parsed'
  have values := congrArg (fun r => r.session.env.values) (same (.fresh false) depthLimit (by cbv))
  exact ⟨closed, statements, whole, values.trans (by cbv)⟩

end Documents
end LiterateMath
