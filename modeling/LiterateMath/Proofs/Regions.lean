import LiterateMath.Proofs.Outcome
import LiterateMath.Region

/-! The filter of regions as a machine. A token changes whether a comment goes on and which
region is open, and is kept or dropped; at the end no region may be open. -/
namespace LiterateMath

structure Reader where
  inComment : Bool
  opened : Option (Region × Span)

namespace Reader

def outside : Reader := ⟨false, none⟩

def next (s : Reader) (t : Token) : Reader × List Token :=
  if s.inComment && t.word? ≠ some .newline then (s, [])
  else
    match t.word?, s.opened with
    | some .percent, opened => (⟨true, opened⟩, [])
    | some (.regionOpening region), none => (⟨false, some (region, t.span)⟩, [])
    | _, none => (outside, [])
    | some (.regionOpening _), opened => (⟨false, opened⟩, [])
    | some (.regionClosing region), some (within, place) =>
        if region = within then (outside, [.plain .regionEnd t.span])
        else (⟨false, some (within, place)⟩, [])
    | _, opened => (⟨false, opened⟩, [t])

def after (s : Reader) : List Token → Reader × List Token
  | [] => (s, [])
  | t :: rest =>
      let one := s.next t
      let more := one.1.after rest
      (more.1, one.2 ++ more.2)

def filter (s : Reader) (ts : List Token) : Parsed (List Token) :=
  filterRegions s.inComment s.opened ts

end Reader

theorem nextCases (s : Reader) (t : Token) :
    ((s.next t).2 = [] ∧ ∀ o, s.opened = some o → (s.next t).1.opened = some o) ∨
    (∃ o, s.opened = some o ∧ (s.inComment = false ∨ t.word? = some .newline) ∧
      s.next t = (⟨false, some o⟩, [t])) ∨
    s.next t = (.outside, [.plain .regionEnd t.span]) := by
  obtain ⟨inComment, opened⟩ := s
  unfold Reader.next
  split
  · exact .inl ⟨rfl, fun _ same => same⟩
  · rename_i noisy
    have heard : inComment = false ∨ t.word? = some .newline := by
      cases inComment with
      | false => exact .inl rfl
      | true => exact .inr (by simpa using noisy)
    clear noisy
    cases opened with
    | none =>
        refine .inl ⟨?_, nofun⟩
        cases t.word? with
        | none => rfl
        | some w => cases w <;> rfl
    | some o =>
        cases word : t.word? with
        | none => exact .inr (.inl ⟨o, rfl, word ▸ heard, rfl⟩)
        | some w =>
            rw [word] at heard
            cases w with
            | percent => exact .inl ⟨rfl, fun _ same => same⟩
            | regionOpening r => exact .inl ⟨rfl, fun _ same => same⟩
            | regionClosing r =>
                obtain ⟨within, place⟩ := o
                simp only
                split
                · exact .inr (.inr rfl)
                · exact .inl ⟨rfl, fun _ same => same⟩
            | _ => exact .inr (.inl ⟨o, rfl, heard, rfl⟩)

theorem afterAppend (s : Reader) (as bs : List Token) : s.after (as ++ bs)
    = (((s.after as).1.after bs).1, (s.after as).2 ++ ((s.after as).1.after bs).2) := by
  induction as generalizing s with
  | nil => rfl
  | cons t rest ih => simp only [List.cons_append, Reader.after, ih, List.append_assoc]

theorem filterCons (s : Reader) (t : Token) (rest : List Token) :
    s.filter (t :: rest) = ((s.next t).1.filter rest).map ((s.next t).2 ++ ·) := by
  have nothing (x : Parsed (List Token)) : x = x.map ([] ++ ·) := by cases x <;> rfl
  obtain ⟨inComment, opened⟩ := s
  unfold Reader.filter Reader.next
  cases opened with
  | none =>
      conv_lhs => unfold filterRegions
      simp only
      split
      · rename_i goesOn
        rw [Bool.and_eq_true] at goesOn
        rw [goesOn.1]
        exact nothing _
      · cases word : t.word? with
        | none => exact nothing _
        | some w => cases w <;> exact nothing _
  | some o =>
      obtain ⟨within, place⟩ := o
      conv_lhs => unfold filterRegions
      simp only
      split
      · rename_i goesOn
        rw [Bool.and_eq_true] at goesOn
        rw [goesOn.1]
        exact nothing _
      · cases word : t.word? with
        | none => rfl
        | some w =>
            cases w with
            | regionClosing region =>
                simp only
                split
                · rfl
                · exact nothing _
            | percent => exact nothing _
            | regionOpening region => exact nothing _
            | _ => rfl

theorem filterAppend (s : Reader) (as bs : List Token) :
    s.filter (as ++ bs) = ((s.after as).1.filter bs).map ((s.after as).2 ++ ·) := by
  induction as generalizing s with
  | nil =>
      simp only [List.nil_append, Reader.after]
      cases s.filter bs <;> rfl
  | cons t rest ih =>
      rw [List.cons_append, filterCons, ih]
      simp only [Reader.after]
      cases ((s.next t).1.after rest).1.filter bs with
      | error failure => rfl
      | ok more => simp [Except.map]

theorem filterNil (s : Reader) : s.filter [] =
    match s.opened with
    | none => .ok []
    | some o => .error (.malformed .regionNeverClosed (some o.2)) := by
  obtain ⟨inComment, _ | _⟩ := s <;> rfl

theorem filterOk {s : Reader} {ts code : List Token} :
    s.filter ts = .ok code ↔ (s.after ts).1.opened = none ∧ (s.after ts).2 = code := by
  have whole := filterAppend s ts []
  rw [List.append_nil, filterNil] at whole
  rw [whole]
  cases (s.after ts).1.opened <;> simp [Except.map]

end LiterateMath
