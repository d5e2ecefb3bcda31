import Racoon.Ds.Probing
import Racoon.Ipc.Process
import Racoon.Sharing.SharedMemory

/-!
# Identifiers

`next_pid`, `next_tid` and the loop of `shmem_create_direct` each look from a
counter on for an id that nothing in a hash table carries. Whatever the table
holds, the id found is unused; that one is found at all depends on the table,
whose lookups fail for some ids, and that it is positive on the counter, which
`next_pid` and `next_tid` leave at the least `int` once they have returned the
last.
-/

namespace Racoon.Identifiers
open Lib HashTables Strings
variable {α : Type}

/-- What the loops read of the objects in a table. -/
structure Carriers (α : Type) where
  idOf : α → ℤ
  key : α → ℤ
  compare : α → α → ℤ
  /-- The object that is looked up for an id. -/
  sample : ℤ → α

/-- A counter after an increment and the test for a roll over. -/
def succId (reset c : ℤ) : ℤ := if int32 (c + 1) < 0 then reset else int32 (c + 1)

/-- The loop of `next_pid` and `next_tid`; `temp` is the id looked up before. -/
def searchFrom (sample : ℤ → α) (reset : ℤ) (t : HashTable α) : ℕ → ℤ → ℤ → Outcome ℤ
  | 0, _, _ => .error .diverges
  | left + 1, temp, counter => do
    let counter := if temp = -1 then counter else succId reset counter
    match ← htableRetrieve t (sample counter) with
    | none => .ok counter
    | some _ => searchFrom sample reset t left counter counter

/-- More rounds than there are ids. -/
def rounds : ℕ := 2 ^ 32

/-- The id with the counter left. -/
def nextId (sample : ℤ → α) (reset : ℤ) (t : HashTable α) (counter : ℤ) : Outcome (ℤ × ℤ) := do
  let id ← searchFrom sample reset t rounds (-1) counter
  .ok (id, int32 (id + 1))

structure ProcessKey where
  pid : ℤ
  name : CString

def ptableCompare (a b : ProcessKey) : ℤ :=
  if b.pid ≠ -1 then
    if a.pid = b.pid then 0
    else if a.pid < b.pid then -1
    else 1
  else kstrncmp a.name b.name Ipc.SMK_NAME_LENGTH

def pids : Carriers ProcessKey where
  idOf := ProcessKey.pid
  key a := ptableKey a.pid
  compare := ptableCompare
  sample pid := ⟨pid, fun _ => 0⟩

def tids : Carriers Ipc.ThreadKey where
  idOf := Ipc.ThreadKey.tid
  key a := threadsKey a.tid
  compare := Ipc.threadsCompare
  sample tid := ⟨fun _ => 0, tid⟩

/-- A region is given by its id, all that the table reads of it. -/
def regions : Carriers ℤ where
  idOf := id
  key := shmemKey
  compare a b := if a = b then 0 else if a < b then -1 else 1
  sample := id

def nextPid (t : HashTable ProcessKey) (lPID : ℤ) : Outcome (ℤ × ℤ) := nextId pids.sample 2 t lPID

def nextTid (t : HashTable Ipc.ThreadKey) (lastTid : ℤ) : Outcome (ℤ × ℤ) :=
  nextId tids.sample 1 t lastTid

/-- The loop of `shmem_create_direct`. -/
def shmemIdFrom (t : HashTable ℤ) : ℕ → ℤ → Outcome (ℤ × ℤ)
  | 0, _ => .error .diverges
  | left + 1, shmemId => do
    match ← htableRetrieve t (regions.sample shmemId) with
    | none => .ok (shmemId, succId 0 shmemId)
    | some _ => shmemIdFrom t left (succId 0 shmemId)

def nextShmemId (t : HashTable ℤ) (shmemId : ℤ) : Outcome (ℤ × ℤ) := shmemIdFrom t rounds shmemId

/-- A table of the carriers, as the operations on it leave it. -/
structure Filled (A : Carriers α) (t : HashTable α) : Prop where
  key : t.key = A.key
  compare : t.compare = A.compare
  total : t.total = (Slots.contents t.table t.size).card
  size_pos : 1 ≤ t.size
  size_lt : t.size < 2 ^ 31

/-- The objects of a table. -/
def live (t : HashTable α) : Multiset α := Slots.contents t.table t.size

/-- The id is in use. -/
def Carried (A : Carriers α) (t : HashTable α) (x : ℤ) : Prop := ∃ e ∈ live t, A.idOf e = x

/-- The ids from `c` up to the first that is not in use. -/
inductive Tried (A : Carriers α) (reset : ℤ) (t : HashTable α) : ℤ → ℤ → Prop
  | here (c : ℤ) : Tried A reset t c c
  | next {c x : ℤ} : Carried A t c → Tried A reset t (succId reset c) x → Tried A reset t c x

/-- `htable_retrieve` fails no assertion for the id. -/
def Found (A : Carriers α) (t : HashTable α) (x : ℤ) : Prop :=
  ∃ r, htableRetrieve t (A.sample x) = .ok r

/-- A lookup that fails no assertion answers right. -/
theorem retrieve_cases {A : Carriers α} {t : HashTable α} (hf : Filled A t) {x : α}
    (hk : ∃ y, IsInt y ∧ t.key x = y) {r : Option α} (h : htableRetrieve t x = .ok r) :
    (r = none ∧ ∀ e ∈ live t, A.compare e x ≠ 0) ∨
      ∃ e ∈ live t, r = some e ∧ A.compare e x = 0 := by
  obtain ⟨y, hint, hy⟩ := hk
  rw [← hf.compare]
  rw [htableRetrieve] at h
  split_ifs at h with hz
  · cases h
    have hn : live t = 0 := Multiset.card_eq_zero.mp (hf.total.symm.trans hz)
    exact .inl ⟨rfl, by simp [hn]⟩
  · dsimp only at h
    obtain ⟨pos, hprobe, h⟩ := bind_eq_ok.mp h
    rw [t.keyOf_eq_magnitude, hy] at hprobe
    rcases probe_eq_ok hprobe with ⟨rfl, hmiss⟩ | ⟨j, hj, rfl, hhit⟩
    · cases h
      refine .inl ⟨rfl, fun e he hc => ?_⟩
      have hfits := fits_of_range hf.size_pos hf.size_lt hint fun i hi =>
        (hmiss i (Nat.zero_le i) (by omega)).1
      obtain ⟨p, hp, hpe⟩ := Slots.mem_contents.mp he
      obtain ⟨i, hi, hip⟩ := (probesAll_of_fits (α := α) hfits).covers p hp
      have hno := (hmiss i (Nat.zero_le i) (by omega)).2
      rw [hip, Int.toNat_natCast, hpe] at hno
      simp [hc] at hno
    · cases h
      have hlt : position (magnitude y) t.size j < t.size :=
        Int.tmod_lt_of_pos _ (by have := hf.size_pos; omega)
      cases he : t.table (position (magnitude y) t.size j).toNat with
      | none => simp [he] at hhit
      | some e =>
        rw [he] at hhit
        exact .inr ⟨e, Slots.mem_contents.mpr ⟨_, by omega, he⟩, rfl, by simpa using hhit⟩

end Racoon.Identifiers
