import KvEngine.Wal.Log

/-!
# Files of records

Replay on a file of any bytes. The bytes before the offset that `replay_into` reports as good
are records one after the other, and they are read alike in front of anything: replaying them
and then other bytes is replaying the file and then the others.

Results:
* `exists_parsesAs`: every file is records and a rest that does not begin with one.
* `ParsesAs.replayLoop_append`: records followed by anything.
* `replay_resumes`: replay is compositional at the last good offset.
-/

namespace KvEngine

/-- The bytes are well-formed records one after the other. -/
inductive ParsesAs : Bytes → List WalRecord → Prop where
  | nil : ParsesAs [] []
  | cons {p s : Bytes} {r : WalRecord} {rs : List WalRecord} (hp : readRecord p = some (r, []))
      (h : ParsesAs s rs) : ParsesAs (p ++ s) (r :: rs)

/-- A record is read from its own bytes. -/
theorem exists_piece {s rest : Bytes} {r : WalRecord} (h : readRecord s = some (r, rest)) :
    ∃ p, s = p ++ rest ∧ readRecord p = some (r, []) := by
  obtain ⟨p, hs, hp⟩ := readRecord_split h
  refine ⟨p, hs, ?_⟩
  rw [← List.append_nil p, hp]

/-- And in front of anything. -/
theorem readRecord_piece {p : Bytes} {r : WalRecord} (hp : readRecord p = some (r, []))
    (u : Bytes) : readRecord (p ++ u) = some (r, u) :=
  readRecord_extend hp u

/-! ## The records of a file -/

theorem readRecords_fuel {fuel fuel' : ℕ} {rest : Bytes} (h : rest.length ≤ fuel)
    (h' : rest.length ≤ fuel') : readRecords fuel rest = readRecords fuel' rest := by
  induction fuel generalizing fuel' rest with
  | zero =>
    obtain rfl : rest = [] := List.length_eq_zero_iff.mp (by omega)
    cases fuel' <;> rfl
  | succ fuel ih =>
    cases fuel' with
    | zero =>
      obtain rfl : rest = [] := List.length_eq_zero_iff.mp (by omega)
      rfl
    | succ fuel' =>
      rw [readRecords, readRecords]
      cases hr : readRecord rest with
      | none => rfl
      | some p =>
        have := readRecord_length hr
        exact congrArg (p.1 :: ·) (ih (by omega) (by omega))

theorem foundRecords_of_some {s rest : Bytes} {r : WalRecord}
    (h : readRecord s = some (r, rest)) : foundRecords s = r :: foundRecords rest := by
  have hlen := readRecord_length h
  obtain ⟨n, hn⟩ : ∃ n, s.length = n + 1 := ⟨s.length - 1, by unfold headerSize at hlen; omega⟩
  rw [foundRecords, hn, readRecords, h]
  exact congrArg (r :: ·) (readRecords_fuel (by omega) le_rfl)

theorem foundRecords_of_none {s : Bytes} (h : readRecord s = none) : foundRecords s = [] := by
  unfold foundRecords
  cases s.length with
  | zero => rfl
  | succ n => rw [readRecords, h]

/-- Every file is records and a rest that does not begin with one. -/
theorem exists_parsesAs (file : Bytes) :
    ∃ s t, file = s ++ t ∧ ParsesAs s (foundRecords file) ∧ readRecord t = none := by
  induction hn : file.length using Nat.strong_induction_on generalizing file with
  | h n ih =>
    subst hn
    cases hr : readRecord file with
    | none => exact ⟨[], file, rfl, foundRecords_of_none hr ▸ .nil, hr⟩
    | some x =>
      obtain ⟨r, rest⟩ := x
      have hlen := readRecord_length hr
      obtain ⟨p, hsplit, hp⟩ := exists_piece hr
      obtain ⟨s, t, hrest, hs, ht⟩ := ih rest.length (by unfold headerSize at hlen; omega) rest rfl
      refine ⟨p ++ s, t, by rw [hsplit, hrest, List.append_assoc], ?_, ht⟩
      rw [foundRecords_of_some hr]
      exact .cons hp hs

/-! ## The loop -/

/-- One round of the loop, at a record's own bytes. -/
theorem replayLoop_piece {p : Bytes} {r : WalRecord} (hp : readRecord p = some (r, []))
    (u : Bytes) {fuel : ℕ} (hfuel : (p ++ u).length ≤ fuel) (st : Replay) :
    replayLoop fuel (p ++ u) st = replayLoop u.length u (st.apply r p.length) := by
  have hread := readRecord_piece hp u
  have hlen := readRecord_length hread
  obtain ⟨fuel, rfl⟩ : ∃ n, fuel = n + 1 := ⟨fuel - 1, by omega⟩
  have hsize : (p ++ u).length - u.length = p.length := by
    rw [List.length_append, Nat.add_sub_cancel]
  rw [replayLoop, hread]
  simp only [hsize]
  exact replayLoop_fuel (by omega) le_rfl _

namespace ParsesAs

variable {s u : Bytes} {rs : List WalRecord}

/-- Records followed by anything: they are found, then what is found in that. -/
theorem foundRecords_append (h : ParsesAs s rs) (u : Bytes) :
    foundRecords (s ++ u) = rs ++ foundRecords u := by
  induction h with
  | nil => rfl
  | @cons p s r rs hp _ ih =>
    have hread := readRecord_piece hp (s ++ u)
    rw [← List.append_assoc] at hread
    rw [foundRecords_of_some hread, ih, List.cons_append]

/-- Records followed by anything: they are applied, and the loop goes on behind them. -/
theorem replayLoop_append (h : ParsesAs s rs) (u : Bytes) {fuel : ℕ}
    (hfuel : (s ++ u).length ≤ fuel) (st : Replay) :
    replayLoop fuel (s ++ u) st = replayLoop u.length u (replayLoop s.length s st) := by
  induction h generalizing fuel st with
  | nil => exact replayLoop_fuel hfuel le_rfl st
  | @cons p s r rs hp _ ih =>
    rw [List.append_assoc] at hfuel ⊢
    rw [replayLoop_piece hp (s ++ u) hfuel, replayLoop_piece hp s le_rfl, ih le_rfl]

/-- The loop moves the last good offset to their end. -/
theorem replayLoop_lastGood (h : ParsesAs s rs) (st : Replay) :
    (replayLoop s.length s st).lastGood = st.lastGood + s.length := by
  induction h generalizing st with
  | nil => rfl
  | @cons p s r rs hp _ ih =>
    rw [replayLoop_piece hp s le_rfl, ih, List.length_append, ← Nat.add_assoc]
    rfl

/-- Replay's last good offset is their end. -/
theorem replay_lastGood (h : ParsesAs s rs) (hu : readRecord u = none) (m : Map) :
    (replay (s ++ u) m).lastGood = s.length := by
  rw [replay, h.replayLoop_append u le_rfl, replayLoop_of_none hu, h.replayLoop_lastGood]
  exact Nat.zero_add _

end ParsesAs

/-- Replay accepted all of the file exactly if it consists of records. -/
theorem lastGood_eq_length_iff (file : Bytes) (m : Map) :
    (replay file m).lastGood = file.length ↔ ∃ rs, ParsesAs file rs := by
  obtain ⟨s, t, rfl, hs, ht⟩ := exists_parsesAs file
  constructor
  · intro h
    rw [hs.replay_lastGood ht, List.length_append] at h
    obtain rfl : t = [] := List.length_eq_zero_iff.mp (by omega)
    rw [List.append_nil] at hs ⊢
    exact ⟨_, hs⟩
  · rintro ⟨rs, hrs⟩
    have := hrs.replay_lastGood readRecord_nil m
    rwa [List.append_nil] at this

/-! ## Going on from the last good offset -/

/-- What a replay made of a file, as part of a replay that was at `before` already. -/
def Replay.after (before st : Replay) : Replay where
  map := st.map
  maxSeq := max before.maxSeq st.maxSeq
  lastGood := before.lastGood + st.lastGood

theorem Replay.after_start (st : Replay) : st.after { map := st.map } = st := by
  simp only [Replay.after, Nat.max_zero, Nat.add_zero]

theorem Replay.apply_after (before st : Replay) (r : WalRecord) (n : ℕ) :
    (before.after st).apply r n = before.after (st.apply r n) := by
  simp only [Replay.after, Replay.apply, Nat.max_assoc, Nat.add_assoc]

/-- The loop adds to the sequence number and the offset it started with. -/
theorem replayLoop_after (before : Replay) (fuel : ℕ) (rest : Bytes) (st : Replay) :
    replayLoop fuel rest (before.after st) = before.after (replayLoop fuel rest st) := by
  induction fuel generalizing rest st with
  | zero => rfl
  | succ fuel ih =>
    rw [replayLoop, replayLoop]
    cases readRecord rest with
    | none => rfl
    | some p => simp only [Replay.apply_after, ih]

/-- A loop that goes on is a replay of what is left. -/
theorem replayLoop_eq_after (u : Bytes) (st : Replay) :
    replayLoop u.length u st = st.after (replay u st.map) :=
  calc replayLoop u.length u st
      = replayLoop u.length u (st.after { map := st.map }) := by rw [st.after_start]
    _ = st.after (replay u st.map) := replayLoop_after _ _ _ _

/-- **Replay is compositional at the last good offset.** The bytes before it, followed by any
others, are replayed as the file and then the others; alone they are replayed to their end. -/
theorem replay_resumes (s u : Bytes) (m : Map) :
    let st := replay s m
    let good := s.take st.lastGood
    let next := replay u st.map
    st.lastGood ≤ s.length ∧
      (replay (good ++ u) m).map = next.map ∧
      (replay (good ++ u) m).maxSeq = max st.maxSeq next.maxSeq ∧
      (replay (good ++ u) m).lastGood = st.lastGood + next.lastGood ∧
      replay good m = st ∧ (replay good m).lastGood = good.length := by
  intro st good next
  obtain ⟨front, tail, hs, hparses, htail⟩ := exists_parsesAs s
  have hlast : st.lastGood = front.length := by
    show (replay s m).lastGood = _
    rw [hs, hparses.replay_lastGood htail]
  have hgood : good = front := by
    show s.take st.lastGood = front
    rw [hlast, hs, List.take_left]
  have halone : replay good m = st := by
    show replay good m = replay s m
    rw [hgood, hs, replay, replay, hparses.replayLoop_append tail le_rfl, replayLoop_of_none htail]
  have hboth : replay (good ++ u) m = st.after next := by
    show replay (good ++ u) m = st.after (replay u st.map)
    rw [← halone, hgood, replay, hparses.replayLoop_append u le_rfl, replayLoop_eq_after]
    rfl
  refine ⟨?_, ?_, ?_, ?_, halone, ?_⟩
  · rw [hlast, hs, List.length_append]
    exact Nat.le_add_right _ _
  · rw [hboth]
    rfl
  · rw [hboth]
    rfl
  · rw [hboth]
    rfl
  · rw [halone, hlast, hgood]

end KvEngine
