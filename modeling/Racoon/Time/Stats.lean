import Racoon.Time.Bogomips

/-!
# The time that a processor has spent

`stats_time` adds the time since the last reading to a record, as a quotient by the speed
of the processor and a remainder; `stats_time_start` takes a reading only. The readings
of the counter are inputs of the calls. None of the time is lost as long as a division
has a quotient of 32 bits.
-/

namespace Racoon.Time

structure STime where
  ops : ℕ
  lastRdtsc : ℕ
  usage : ℕ

/-- All three fields have 64 bits. -/
def statsTime (bogomips temp : ℕ) (st : STime) : Outcome STime :=
  if st.lastRdtsc = 0 then .ok { st with lastRdtsc := temp }
  else
    let ops := (st.ops + (temp + 2 ^ 64 - st.lastRdtsc) % 2 ^ 64) % 2 ^ 64
    if bogomips ≤ ops then do
      let (quotient, rem) ← udiv ops bogomips
      .ok ⟨rem, temp, (st.usage + quotient) % 2 ^ 64⟩
    else .ok ⟨ops, temp, st.usage⟩

def statsTimeStart (temp : ℕ) (st : STime) : STime := { st with lastRdtsc := temp }

/-- The two calls, each with the reading that it takes. -/
inductive Call
  | time (rdtsc : ℕ)
  | start (rdtsc : ℕ)

def Call.rdtsc : Call → ℕ
  | .time r => r
  | .start r => r

def Call.exec (bogomips : ℕ) (st : STime) : Call → Outcome STime
  | .time r => statsTime bogomips r st
  | .start r => .ok (statsTimeStart r st)

def run (bogomips : ℕ) : STime → List Call → Outcome STime
  | st, [] => .ok st
  | st, c :: cs => do
    let st ← c.exec bogomips st
    run bogomips st cs

def newSTime : STime := ⟨0, 0, 0⟩

/-- The time between the reading before, if there is one, and this call; only `stats_time` counts
it. -/
def Call.spent : Option ℕ → Call → ℕ
  | some last, .time r => r - last
  | _, _ => 0

/-- The sum over the calls of a run. -/
def spent : Option ℕ → List Call → ℕ
  | _, [] => 0
  | last, c :: cs => c.spent last + spent (some c.rdtsc) cs

/-- A positive reading of 64 bits, not before the last one and not too long after it. -/
structure Call.Timely (bogomips : ℕ) (last : Option ℕ) (c : Call) : Prop where
  pos : 0 < c.rdtsc
  lt : c.rdtsc < 2 ^ 64
  le : ∀ r, last = some r → r ≤ c.rdtsc
  gap : ∀ r, last = some r → c.rdtsc - r < 2 ^ 32 * bogomips - bogomips

def Timely (bogomips : ℕ) : Option ℕ → List Call → Prop
  | _, [] => True
  | last, c :: cs => c.Timely bogomips last ∧ Timely bogomips (some c.rdtsc) cs

/-- The record after some calls, the last of them with the reading `last`, that have spent
`total`. -/
structure Counts (bogomips : ℕ) (st : STime) (last : Option ℕ) (total : ℕ) : Prop where
  reading : st.lastRdtsc = last.getD 0
  pos : ∀ r, last = some r → 0 < r
  lt : st.lastRdtsc < 2 ^ 64
  ops : st.ops < bogomips
  sum : st.usage * bogomips + st.ops = total
  le : total ≤ st.lastRdtsc

section Steps
variable {bogomips total : ℕ} {st : STime} {last : Option ℕ} {c : Call}

theorem Counts.new (hb : 0 < bogomips) : Counts bogomips newSTime none 0 :=
  ⟨rfl, nofun, by decide, hb, Nat.zero_mul bogomips, le_rfl⟩

/-- The division of a call has the remainder of the call before and a gap to divide. -/
theorem Counts.time (h : Counts bogomips st last total) (hb : bogomips < 2 ^ 32) {r : ℕ}
    (hc : (Call.time r).Timely bogomips last) : ∃ st', statsTime bogomips r st = .ok st' ∧
      Counts bogomips st' (some r) (total + (Call.time r).spent last) := by
  obtain ⟨hpos, hlt, hle, hgap⟩ := hc
  have hops := h.ops
  have hsum := h.sum
  have htotal := h.le
  have hlast := h.reading
  cases last with
  | none =>
    refine ⟨_, if_pos hlast, rfl, fun _ hr => Option.some.inj hr ▸ hpos, hlt, hops, hsum, ?_⟩
    rw [hlast] at htotal
    exact htotal.trans (Nat.zero_le r)
  | some l =>
    have hl : st.lastRdtsc = l := hlast
    have hlpos : 0 < l := h.pos l rfl
    have hle : l ≤ r := hle l rfl
    have hgap : r - l < 2 ^ 32 * bogomips - bogomips := hgap l rfl
    rw [hl] at htotal
    rw [statsTime, hl, if_neg hlpos.ne']
    have hdiff : (r + 2 ^ 64 - l) % 2 ^ 64 = r - l := by
      change r < 2 ^ 64 at hlt
      omega
    have hsmall : (st.ops + (r - l)) % 2 ^ 64 = st.ops + (r - l) := Nat.mod_eq_of_lt (by omega)
    rw [hdiff, hsmall]
    dsimp only
    by_cases hdiv : bogomips ≤ st.ops + (r - l)
    · have hquot := Nat.div_add_mod' (st.ops + (r - l)) bogomips
      have hrem : (st.ops + (r - l)) % bogomips < bogomips := Nat.mod_lt _ (by omega)
      rw [if_pos hdiv, udiv_of_lt (by omega), ok_bind]
      generalize (st.ops + (r - l)) / bogomips = q at hquot
      generalize (st.ops + (r - l)) % bogomips = m at hquot hrem
      have hnew : (st.usage + q) * bogomips + m = total + (r - l) := by
        rw [Nat.add_mul]
        omega
      have husage : st.usage + q ≤ (st.usage + q) * bogomips := Nat.le_mul_of_pos_right _ (by omega)
      have hlt : r < 2 ^ 64 := hlt
      rw [Nat.mod_eq_of_lt (by omega)]
      exact ⟨_, rfl, rfl, fun _ hr => Option.some.inj hr ▸ hpos, hlt, hrem, hnew,
        show total + (r - l) ≤ r by omega⟩
    · rw [if_neg hdiv]
      refine ⟨_, rfl, rfl, fun _ hr => Option.some.inj hr ▸ hpos, hlt, not_le.mp hdiv, ?_,
        show total + (r - l) ≤ r by omega⟩
      change st.usage * bogomips + (st.ops + (r - l)) = total + (r - l)
      omega

theorem Counts.start (h : Counts bogomips st last total) {r : ℕ}
    (hc : (Call.start r).Timely bogomips last) :
    Counts bogomips (statsTimeStart r st) (some r) total := by
  have htotal := h.le
  refine ⟨rfl, fun _ hr => Option.some.inj hr ▸ hc.pos, hc.lt, h.ops, h.sum, ?_⟩
  have hlast := h.reading
  cases last with
  | none =>
    rw [hlast] at htotal
    exact htotal.trans (Nat.zero_le r)
  | some l =>
    rw [hlast] at htotal
    exact htotal.trans (hc.le l rfl)

theorem Counts.exec (h : Counts bogomips st last total) (hb : bogomips < 2 ^ 32)
    (hc : c.Timely bogomips last) : ∃ st', c.exec bogomips st = .ok st' ∧
      Counts bogomips st' (some c.rdtsc) (total + c.spent last) := by
  cases c with
  | time r => exact h.time hb hc
  | start r =>
    refine ⟨_, rfl, ?_⟩
    have hnone : (Call.start r).spent last = 0 := by cases last <;> rfl
    rw [hnone]
    exact h.start hc

theorem Counts.run (h : Counts bogomips st last total) (hb : bogomips < 2 ^ 32) {cs : List Call}
    (hcs : Timely bogomips last cs) : ∃ st' last', Time.run bogomips st cs = .ok st' ∧
      Counts bogomips st' last' (total + spent last cs) := by
  induction cs generalizing st last total with
  | nil => exact ⟨st, last, rfl, h⟩
  | cons c cs ih =>
    obtain ⟨hc, hcs⟩ := hcs
    obtain ⟨st₁, h₁, hcount⟩ := h.exec hb hc
    obtain ⟨st', last', hrun, hcount'⟩ := ih hcount hcs
    refine ⟨st', last', ?_, ?_⟩
    · rw [Time.run, h₁, ok_bind, hrun]
    · rwa [spent, ← Nat.add_assoc]

end Steps

/-- No division faults, and the time that was spent is all in the record. -/
theorem stats_time_conserved {bogomips : ℕ} (hb : 0 < bogomips) (hb' : bogomips < 2 ^ 32)
    {cs : List Call} (hcs : Timely bogomips none cs) : ∃ st, run bogomips newSTime cs = .ok st ∧
      st.ops < bogomips ∧ st.usage * bogomips + st.ops = spent none cs := by
  obtain ⟨st, last, hrun, hcount⟩ := (Counts.new hb).run hb' hcs
  refine ⟨st, hrun, hcount.ops, ?_⟩
  rw [hcount.sum, Nat.zero_add]

/-- Seven units up to the second reading, and four after a restart. -/
theorem stats_time_conserved_restart :
    ∃ st, run 3 newSTime [.time 5, .time 12, .start 20, .time 24] = .ok st ∧ st.ops < 3 ∧
      st.usage * 3 + st.ops = 11 := by
  refine stats_time_conserved (by decide) (by decide) ⟨⟨by decide, by decide, nofun, nofun⟩, ?_⟩
  refine ⟨⟨by decide, by decide, ?_, ?_⟩, ⟨by decide, by decide, ?_, ?_⟩,
    ⟨by decide, by decide, ?_, ?_⟩, trivial⟩
  all_goals
    intro r hr
    cases hr
    decide

end Racoon.Time
