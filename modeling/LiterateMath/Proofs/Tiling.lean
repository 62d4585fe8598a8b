import LiterateMath.Proofs.Printing.Lexing
import LiterateMath.Proofs.Whitespace

/-! Where tokens stand. Those of a text stand side by side from one end to the other, and no pass
over them leaves a gap or an overlap. -/
namespace LiterateMath

def Tiles : (lo : Nat) → List Token → (hi : Nat) → Prop
  | lo, [], hi => lo = hi
  | lo, t :: rest, hi => t.span.start = lo ∧ lo < t.span.stop ∧ Tiles t.span.stop rest hi

section Side

variable {ts us : List Token} {lo mid hi : Nat}

theorem tilesAppend :
    Tiles lo (ts ++ us) hi ↔ ∃ mid, Tiles lo ts mid ∧ Tiles mid us hi := by
  induction ts generalizing lo with
  | nil => exact ⟨fun h => ⟨lo, rfl, h⟩, fun ⟨_, same, h⟩ => same ▸ h⟩
  | cons t rest ih =>
      simp only [List.cons_append, Tiles, ih]
      exact ⟨fun ⟨start, long, mid, h, h'⟩ => ⟨mid, ⟨start, long, h⟩, h'⟩,
        fun ⟨mid, ⟨start, long, h⟩, h'⟩ => ⟨start, long, mid, h, h'⟩⟩

theorem Tiles.forward (tiles : Tiles lo ts hi) : lo ≤ hi := by
  induction ts generalizing lo with
  | nil => exact Nat.le_of_eq tiles
  | cons t rest ih => exact Nat.le_trans (Nat.le_of_lt tiles.2.1) (ih tiles.2.2)

theorem Tiles.within (tiles : Tiles lo ts hi) {t : Token} (member : t ∈ ts) :
    lo ≤ t.span.start ∧ t.span.start < t.span.stop ∧ t.span.stop ≤ hi := by
  induction ts generalizing lo with
  | nil => cases member
  | cons first rest ih =>
      obtain ⟨start, long, later⟩ := tiles
      rcases List.mem_cons.mp member with rfl | inside
      · exact ⟨Nat.le_of_eq start.symm, start ▸ long, later.forward⟩
      · have := ih later inside
        omega

theorem Tiles.advance (tiles : Tiles lo ts hi) (filled : ts ≠ []) : lo < hi := by
  obtain ⟨t, rest, rfl⟩ := List.exists_cons_of_ne_nil filled
  exact Nat.lt_of_lt_of_le tiles.2.1 tiles.2.2.forward

theorem Tiles.last {t : Token} (tiles : Tiles lo (t :: ts) hi) :
    (ts.getLastD t).span.stop = hi := by
  induction ts generalizing t lo with
  | nil => exact tiles.2.2
  | cons u rest ih =>
      rw [List.getLastD_cons]
      exact ih tiles.2.2

theorem Tiles.spanOf (tiles : Tiles lo ts hi) (filled : ts ≠ []) :
    spanOf ts = some ⟨lo, hi⟩ := by
  obtain ⟨t, rest, rfl⟩ := List.exists_cons_of_ne_nil filled
  have ends : ((t :: rest).getLast (List.cons_ne_nil t rest)).span.stop = hi := by
    rw [List.getLast_eq_getLastD]
    exact tiles.last
  rw [LiterateMath.spanOf, ← tiles.1]
  exact congrArg _ (congrArg _ ends)

theorem Tiles.shifted (tiles : Tiles lo ts hi) (offset : Nat) :
    Tiles (lo + offset) (ts.map (Token.moved (.shift offset))) (hi + offset) := by
  induction ts generalizing lo with
  | nil => exact congrArg (· + offset) tiles
  | cons t rest ih =>
      have place : (t.moved (.shift offset)).span = t.span.shift offset :=
        (tokenMoves (.shift offset)).span t
      rw [List.map_cons, Tiles, place]
      exact ⟨congrArg (· + offset) tiles.1, Nat.add_lt_add_right tiles.2.1 offset,
        ih tiles.2.2⟩

theorem Tiles.ascend (tiles : Tiles lo ts hi) :
    (ts.map Token.span).Pairwise fun p q => p.stop ≤ q.start := by
  induction ts generalizing lo with
  | nil => exact .nil
  | cons t rest ih =>
      obtain ⟨-, -, later⟩ := tiles
      refine .cons ?_ (ih later)
      intro q member
      obtain ⟨u, inside, rfl⟩ := List.mem_map.mp member
      exact (later.within inside).1

theorem tilesBefore {before within : List Token} (first : Tiles lo before mid)
    (second : Tiles mid within hi) (filled : within ≠ []) (after : List Token) :
    (before ++ (within ++ after)).takeWhile (fun t => t.span.stop ≤ mid) = before := by
  obtain ⟨t, rest, rfl⟩ := List.exists_cons_of_ne_nil filled
  rw [List.takeWhile_append_of_pos fun u member => decide_eq_true (first.within member).2.2,
    List.cons_append, List.takeWhile_cons_of_neg, List.append_nil]
  simpa using second.2.1

end Side

section Passes

variable {ts : List Token} {lo hi : Nat}

theorem lexFromTiles (place : Nat) (cs : List Char) :
    Tiles place (lexFrom place cs) (place + cs.length) := by
  fun_induction lexFrom place cs with
  | case1 => rfl
  | case2 place c rest taken stop ih =>
      have within : taken.2 ≤ rest.length := munchLength c rest
      have reach : stop + (rest.drop taken.2).length = place + (c :: rest).length := by
        simp only [stop, List.length_drop, List.length_cons]
        omega
      refine ⟨rfl, ?_, reach ▸ ih⟩
      simp only [Token.span, stop]
      omega

theorem formStubsTiles (tiles : Tiles lo ts hi) : Tiles lo (formStubs ts) hi := by
  fun_induction formStubs ts generalizing lo with
  | case1 first name last rest ih =>
      obtain ⟨start, long, -, long', later⟩ := tiles
      exact ⟨start, Nat.lt_trans long long', ih later⟩
  | case2 t rest single ih => exact ⟨tiles.1, tiles.2.1, ih tiles.2.2⟩
  | case3 => exact tiles

theorem resolveNamesTiles (tiles : Tiles lo ts hi) : Tiles lo (resolveNames ts) hi := by
  have place (t : Token) : (resolveName t).span = t.span := by
    unfold resolveName
    split <;> rfl
  induction ts generalizing lo with
  | nil => exact tiles
  | cons t rest ih =>
      rw [resolveNames, List.map_cons, Tiles, place]
      exact ⟨tiles.1, tiles.2.1, ih tiles.2.2⟩

theorem takeGroupsTiles (ts : List Token) (lo : Nat) (tiles : Tiles lo ts hi) :
    ∃ mid, lo ≤ mid ∧ Tiles mid (takeGroups ts).2 hi ∧
      ((takeGroups ts).1.getLast?.map fun g => g.last.span.stop).getD lo = mid := by
  fun_induction takeGroups ts generalizing lo with
  | case1 => exact ⟨lo, Nat.le_refl lo, tiles, rfl⟩
  | case2 => exact ⟨lo, Nat.le_refl lo, tiles, rfl⟩
  | case3 t rest kind found cut last more ih =>
      have whole : t :: rest = (t :: cut.1) ++ cut.2 :=
        congrArg (t :: ·) (splitGroupAppend kind.bracket 0 rest).symm
      rw [whole, tilesAppend] at tiles
      obtain ⟨reach, inside, outside⟩ := tiles
      have group : lo < last.span.stop ∧ Tiles last.span.stop (cut.2.drop 1) hi := by
        cases partner : cut.2 with
        | nil =>
            have ends : last = cut.1.getLastD t := by simp [last, partner]
            rw [partner] at outside
            rw [ends, inside.last]
            exact ⟨Nat.lt_of_lt_of_le inside.2.1 inside.2.2.forward, outside⟩
        | cons closer after =>
            have ends : last = closer := by simp [last, partner]
            rw [partner] at outside
            rw [ends]
            exact ⟨Nat.lt_of_le_of_lt inside.forward outside.2.1, outside.2.2⟩
      obtain ⟨mid, further, later, same⟩ := ih _ group.2
      refine ⟨mid, Nat.le_trans (Nat.le_of_lt group.1) further, later, ?_⟩
      rw [← same, List.getLast?_cons]
      show _ = (more.1.getLast?.map _).getD _
      cases more.1.getLast? <;> rfl

theorem captureTiles (ts : List Token) (lo : Nat) (tiles : Tiles lo ts hi) :
    Tiles lo (captureArguments ts) hi := by
  fun_induction captureArguments ts generalizing lo with
  | case1 => exact tiles
  | case2 name place rest taken groups ih ih' =>
      obtain ⟨start, long, later⟩ := tiles
      obtain ⟨mid, further, after, ends⟩ := takeGroupsTiles rest _ later
      have onward := ih' _ after
      cases held : taken.1.getLast? with
      | none =>
          rw [show (takeGroups rest).1.getLast? = none from held] at ends
          exact ⟨start, long, by cases ends; exact onward⟩
      | some g =>
          rw [show (takeGroups rest).1.getLast? = some g from held] at ends
          have ends : g.last.span.stop = mid := ends
          refine ⟨start, ?_, ends ▸ onward⟩
          exact Nat.lt_of_lt_of_le long (ends ▸ further)
  | case3 t rest plain ih => exact ⟨tiles.1, tiles.2.1, ih _ tiles.2.2⟩

end Passes
end LiterateMath
