import Racoon.Lib.OrderedMap
import Racoon.Lib.Prefix
import Racoon.Env.Kalloc

/-!
# The environment of a process

`kernel/env.c`. The variables of a process stand in one array that is
reallocated as they come and go; each owns a block with its data. A name is
compared and copied up to `SMK_ENVNAME_LENGTH` characters. `Represents` says
which blocks a process owns for which entries, and each function is shown to act
on the entries as on an ordered map.
-/

namespace Racoon.Env
open Lib Strings

def SMK_OK : ℤ := 0
def SMK_NOMEM : ℤ := -2
def SMK_BAD_PARAMS : ℤ := -8
def SMK_NOT_FOUND : ℤ := -14
def SMK_REQUESTED_NOTHING : ℤ := -15

structure Process where
  environment : Option ℕ
  environmentCount : ℕ

/-- `kstrncmp( .., .., SMK_ENVNAME_LENGTH ) == 0` -/
def named (name : CString) (e : EnvironInfo) : Bool :=
  kstrncmp e.name name SMK_ENVNAME_LENGTH = 0

/-- The index of the first entry with the name among the `left` entries from `i`, or their end. -/
def findFrom (m : Memory) (env : Option ℕ) (name : CString) : ℕ → ℕ → Outcome ℕ
  | i, 0 => .ok i
  | i, left + 1 => do
    let e ← entry m env i
    if named name e then .ok i else findFrom m env name (i + 1) left

/-- The size of an array, as the machine computes it. -/
def arrayBytes (n : ℕ) : ℕ := n * sizeofEnvironInfo % 2 ^ 32

/-- `set_environment` with any function in the place of `krealloc`. -/
def setEnvironmentWith (realloc : Kalloc → Memory → Option ℕ → ℕ → Outcome (Option ℕ × Memory))
    (k : Kalloc) (m : Memory) (proc : Process) (name : Option CString) (data : Option Buffer)
    (size : ℕ) : Outcome (ℤ × Process × Memory) :=
  match data, name with
  | none, _ => .ok (SMK_BAD_PARAMS, proc, m)
  | some _, none => .ok (SMK_BAD_PARAMS, proc, m)
  | some data, some name =>
    if size = 0 then .ok (SMK_REQUESTED_NOTHING, proc, m) else do
    let i ← findFrom m proc.environment name 0 proc.environmentCount
    if i < proc.environmentCount then do
      let e ← entry m proc.environment i
      let (p, m) ← kmalloc k m size (.bytes k.litter)
      match p with
      | none => .ok (SMK_NOMEM, proc, m)
      | some p => do
        let m ← kfree m e.data
        let m ← setEntry m proc.environment i { e with data := p, size := size }
        let m ← copyInto m p data size
        .ok (SMK_OK, proc, m)
    else do
      let (p, m) ← kmalloc k m size (.bytes k.litter)
      match p with
      | none => .ok (SMK_NOMEM, proc, m)
      | some p => do
        let (env, m) ← realloc k m proc.environment (arrayBytes (proc.environmentCount + 1))
        if env = none then do
          let m ← kfree m p
          .ok (SMK_NOMEM, ⟨none, 0⟩, m)
        else do
          let m ← copyInto m p data size
          let e ← entry m env proc.environmentCount
          let m ← setEntry m env proc.environmentCount
            ⟨kstrncpy e.name name SMK_ENVNAME_LENGTH, size, p⟩
          .ok (SMK_OK, ⟨env, proc.environmentCount + 1⟩, m)

def setEnvironment (k : Kalloc) (m : Memory) (proc : Process) (name : Option CString)
    (data : Option Buffer) (size : ℕ) : Outcome (ℤ × Process × Memory) :=
  setEnvironmentWith krealloc k m proc name data size

def getEnvironment (m : Memory) (proc : Process) (name : CString) (data : Buffer) (size : ℕ) :
    Outcome (ℤ × Buffer × ℕ) := do
  let i ← findFrom m proc.environment name 0 proc.environmentCount
  if i < proc.environmentCount then do
    let e ← entry m proc.environment i
    let newSize := if e.size > size then size else e.size
    let b ← bytesAt m e.data newSize
    .ok (SMK_OK, kmemcpy data b newSize, newSize)
  else .ok (SMK_NOT_FOUND, data, size)

def getEnvironmentSize (m : Memory) (proc : Process) (name : CString) (size : ℕ) :
    Outcome (ℤ × ℕ) := do
  let i ← findFrom m proc.environment name 0 proc.environmentCount
  if i < proc.environmentCount then do
    let e ← entry m proc.environment i
    .ok (SMK_OK, e.size)
  else .ok (SMK_NOT_FOUND, size)

def getEnvironmentInformation (m : Memory) (proc : Process) (id : ℤ) (name : CString)
    (size : ℕ) : Outcome (ℤ × CString × ℕ) :=
  if id < 0 then .ok (SMK_NOT_FOUND, name, size)
  else if id ≥ proc.environmentCount then .ok (SMK_NOT_FOUND, name, size)
  else do
    let e ← entry m proc.environment id.toNat
    .ok (SMK_OK, kstrncpy name e.name SMK_ENVNAME_LENGTH, e.size)

/-- The loop of `remove_environment`, with the entries from `i` to go. -/
def removeFrom (env : Option ℕ) (name : CString) : ℕ → ℕ → Bool → Memory → Outcome (Bool × Memory)
  | _, 0, found, m => .ok (found, m)
  | i, left + 1, false, m => do
    let e ← entry m env i
    if named name e then do
      let m ← kfree m e.data
      removeFrom env name (i + 1) left true m
    else removeFrom env name (i + 1) left false m
  | i, left + 1, true, m => do
    let e ← entry m env i
    let m ← setEntry m env (i - 1) e
    removeFrom env name (i + 1) left true m

def removeEnvironment (k : Kalloc) (m : Memory) (proc : Process) (name : CString) :
    Outcome (ℤ × Process × Memory) := do
  let (found, m) ← removeFrom proc.environment name 0 proc.environmentCount false m
  if found = false then .ok (SMK_NOT_FOUND, proc, m)
  else do
    let (env, m) ← krealloc k m proc.environment (arrayBytes (proc.environmentCount - 1))
    .ok (SMK_OK, ⟨env, proc.environmentCount - 1⟩, m)

/-- `for ( ; left entries from i; i++ ) kfree( env[i].data );` -/
def freeFrom (env : Option ℕ) : ℕ → ℕ → Memory → Outcome Memory
  | _, 0, m => .ok m
  | i, left + 1, m => do
    let e ← entry m env i
    let m ← kfree m e.data
    freeFrom env (i + 1) left m

def releaseEnvironment (m : Memory) (proc : Process) : Outcome (ℤ × Process × Memory) :=
  match proc.environment with
  | none => .ok (SMK_OK, ⟨none, 0⟩, m)
  | some a => do
    let m ← freeFrom (some a) 0 proc.environmentCount m
    let m ← kfree m a
    .ok (SMK_OK, ⟨none, 0⟩, m)

/-- The loop of `clone_environment` over the source's entries from `i`. -/
def cloneFrom (k : Kalloc) (env : Option ℕ) : ℕ → ℕ → Process → Memory →
    Outcome (ℤ × Process × Memory)
  | _, 0, dest, m => .ok (0, dest, m)
  | i, left + 1, dest, m => do
    let e ← entry m env i
    let data ← bytesAt m e.data e.size
    let (rc, dest, m) ← setEnvironment k m dest (some e.name) (some data) e.size
    if rc ≠ 0 then do
      let (_, dest, m) ← releaseEnvironment m dest
      .ok (-1, dest, m)
    else cloneFrom k env (i + 1) left dest m

def cloneEnvironment (k : Kalloc) (m : Memory) (dest src : Process) :
    Outcome (ℤ × Process × Memory) := do
  let (rc, dest, m) ← releaseEnvironment m dest
  if rc ≠ 0 then .ok (-1, dest, m)
  else if src.environment = none then .ok (0, dest, m)
  else cloneFrom k src.environment 0 src.environmentCount dest m

/-! ### The blocks of a process -/

/-- `env` is an array of the entries `es`, with room for `n`. -/
def ArrayAt (m : Memory) (a n : ℕ) (es : List EnvironInfo) : Prop :=
  ∃ room e, m.block a = some ⟨room, .environ e⟩ ∧ n * sizeofEnvironInfo ≤ room ∧
    es.length ≤ n ∧ taken e es.length = es

def DataAt (m : Memory) (e : EnvironInfo) : Prop :=
  ∃ room d, m.block e.data = some ⟨room, .bytes d⟩ ∧ 0 < e.size ∧ e.size ≤ room

/-- The process has the entries `es`, and their blocks are there and distinct. -/
structure Represents (m : Memory) (proc : Process) (es : List EnvironInfo) : Prop where
  count : proc.environmentCount = es.length
  array : ∀ a, proc.environment = some a → ArrayAt m a es.length es
  empty : proc.environment = none → es = []
  data : ∀ e ∈ es, DataAt m e
  distinct : (es.map EnvironInfo.data).Nodup

def owned (proc : Process) (es : List EnvironInfo) : List ℕ :=
  proc.environment.toList ++ es.map EnvironInfo.data

def dataOf (m : Memory) (e : EnvironInfo) : List UInt8 :=
  match m.block e.data with
  | some ⟨_, .bytes d⟩ => taken d e.size
  | _ => []

/-- A variable as a user sees it: its name as far as it is compared, and its data. -/
def view (m : Memory) (e : EnvironInfo) : List ℤ × List UInt8 :=
  (cut e.name SMK_ENVNAME_LENGTH, dataOf m e)

def key (name : CString) : List ℤ := cut name SMK_ENVNAME_LENGTH

/-- Blocks outside `own` stay as they are and do not come into `own'`. -/
structure Frame (m m' : Memory) (own own' : List ℕ) : Prop where
  kept : ∀ x, m.block x ≠ none → x ∉ own → m'.block x = m.block x
  apart : ∀ x, m.block x ≠ none → x ∉ own → x ∉ own'
  refused : m.refused = true → m'.refused = true

theorem Frame.refl (m : Memory) (own : List ℕ) : Frame m m own own :=
  ⟨fun _ _ _ => rfl, fun _ _ h => h, fun h => h⟩

theorem Frame.trans {m m' m'' : Memory} {own own' own'' : List ℕ} (h : Frame m m' own own')
    (h' : Frame m' m'' own' own'') : Frame m m'' own own'' := by
  have hx : ∀ x, m.block x ≠ none → x ∉ own → m'.block x ≠ none := fun x hb hn => by
    rw [h.kept x hb hn]
    exact hb
  refine ⟨fun x hb hn => ?_, fun x hb hn => ?_, fun hr => h'.refused (h.refused hr)⟩
  · rw [h'.kept x (hx x hb hn) (h.apart x hb hn), h.kept x hb hn]
  · exact h'.apart x (hx x hb hn) (h.apart x hb hn)

theorem DataAt.congr {m m' : Memory} {e : EnvironInfo} (h : DataAt m e)
    (hb : m'.block e.data = m.block e.data) : DataAt m' e := by
  obtain ⟨room, d, hd, hs⟩ := h
  exact ⟨room, d, hb.trans hd, hs⟩

theorem view_congr {m m' : Memory} {e : EnvironInfo} (hb : m'.block e.data = m.block e.data) :
    view m' e = view m e := by
  simp only [view, dataOf, hb]

theorem view_eq {m : Memory} {e : EnvironInfo} {room : ℕ} {d : Buffer}
    (h : m.block e.data = some ⟨room, .bytes d⟩) :
    view m e = (key e.name, taken d e.size) := by
  simp only [view, dataOf, h, key]

theorem ArrayAt.congr {m m' : Memory} {a n : ℕ} {es : List EnvironInfo} (h : ArrayAt m a n es)
    (hb : m'.block a = m.block a) : ArrayAt m' a n es := by
  obtain ⟨room, e, he, hr⟩ := h
  exact ⟨room, e, hb.trans he, hr⟩

theorem taken_kmemcpy (d src : Buffer) (n : ℕ) : taken (kmemcpy d src n) n = taken src n :=
  taken_congr fun _ hi => if_pos hi

namespace Represents
variable {m m' : Memory} {proc : Process} {es : List EnvironInfo}

theorem nil (m : Memory) : Represents m ⟨none, 0⟩ [] where
  count := rfl
  array _ h := by simp at h
  empty _ := rfl
  data _ h := by simp at h
  distinct := List.nodup_nil

/-- An array and its distinct data blocks make an environment. -/
theorem of_array {a : ℕ} (ha : ArrayAt m a es.length es) (hd : ∀ e ∈ es, DataAt m e)
    (hn : (es.map EnvironInfo.data).Nodup) : Represents m ⟨some a, es.length⟩ es where
  count := rfl
  array x hx := by
    cases hx
    exact ha
  empty h := by simp at h
  data := hd
  distinct := hn

theorem allocated (h : Represents m proc es) {x : ℕ} (hx : x ∈ owned proc es) :
    m.block x ≠ none := by
  rw [owned, List.mem_append, Option.mem_toList, List.mem_map] at hx
  rcases hx with hx | ⟨e, he, rfl⟩
  · obtain ⟨room, e, hb, _⟩ := h.array x hx
    simp [hb]
  · obtain ⟨room, d, hb, _⟩ := h.data e he
    simp [hb]

theorem congr (h : Represents m proc es) (hb : ∀ x ∈ owned proc es, m'.block x = m.block x) :
    Represents m' proc es where
  count := h.count
  array a ha := (h.array a ha).congr (hb a (List.mem_append_left _ (by simp [ha])))
  empty := h.empty
  data e he := (h.data e he).congr (hb _ (List.mem_append_right _ (List.mem_map_of_mem he)))
  distinct := h.distinct

theorem views_congr (hb : ∀ x ∈ owned proc es, m'.block x = m.block x) :
    es.map (view m') = es.map (view m) :=
  List.map_congr_left fun _ he =>
    view_congr (hb _ (List.mem_append_right _ (List.mem_map_of_mem he)))

/-- An environment outside a change stays as it is. -/
theorem frame {own own' : List ℕ} (h : Represents m proc es) (hf : Frame m m' own own')
    (hd : (owned proc es).Disjoint own) :
    Represents m' proc es ∧ es.map (view m') = es.map (view m) ∧
      (owned proc es).Disjoint own' := by
  have hb : ∀ x ∈ owned proc es, m'.block x = m.block x :=
    fun x hx => hf.kept x (h.allocated hx) (hd hx)
  exact ⟨h.congr hb, views_congr hb, fun x hx => hf.apart x (h.allocated hx) (hd hx)⟩

/-- The array behind the pointer of an environment that is not empty. -/
theorem array_of_lt (h : Represents m proc es) {i : ℕ} (hi : i < es.length) :
    ∃ a room e, proc.environment = some a ∧ m.block a = some ⟨room, .environ e⟩ ∧
      es.length * sizeofEnvironInfo ≤ room ∧ taken e es.length = es := by
  cases ha : proc.environment with
  | none => simp [h.empty ha] at hi
  | some a =>
    obtain ⟨room, e, hb, hr, _, ht⟩ := h.array a ha
    exact ⟨a, room, e, rfl, hb, hr, ht⟩

theorem entry_eq (h : Represents m proc es) {i : ℕ} (hi : i < es.length) :
    entry m proc.environment i = .ok es[i] := by
  obtain ⟨a, room, e, ha, hb, hr, ht⟩ := h.array_of_lt hi
  have he : es[i]? = some (e i) := by
    conv_lhs => rw [← ht]
    rw [getElem?_taken, if_pos hi]
  rw [ha, Env.entry_eq hb ((Nat.mul_le_mul_right _ hi).trans hr)]
  rw [List.getElem?_eq_getElem hi] at he
  rw [Option.some.inj he]

theorem findFrom_eq (h : Represents m proc es) (name : CString) :
    findFrom m proc.environment name 0 proc.environmentCount = .ok (es.findIdx (named name)) := by
  suffices hs : ∀ left i, i + left = es.length →
      findFrom m proc.environment name i left =
        .ok (i + (es.drop i).findIdx (named name)) by
    simpa [h.count] using hs es.length 0 (Nat.zero_add _)
  intro left
  induction left with
  | zero =>
    intro i hi
    rw [List.drop_eq_nil_of_le (by omega)]
    rfl
  | succ left ih =>
    intro i hi
    have hlt : i < es.length := by omega
    rw [findFrom, h.entry_eq hlt, ok_bind, List.drop_eq_getElem_cons hlt, List.findIdx_cons]
    cases hn : named name es[i] with
    | true => simp
    | false =>
      simp only [Bool.false_eq_true, if_false, cond_false, ih (i + 1) (by omega)]
      congr 1
      omega

/-- The address space bounds the number of variables, so that no array size wraps around. -/
theorem arrayBytes_eq (h : Represents m proc es) {n : ℕ} (hn : n ≤ es.length + 1) :
    arrayBytes n = n * sizeofEnvironInfo := by
  refine Nat.mod_eq_of_lt ?_
  rcases Nat.eq_zero_or_pos es.length with h0 | hpos
  · have : n ≤ 1 := by omega
    interval_cases n <;> decide
  obtain ⟨a, room, _, ha, hb, hr, ht⟩ := h.array_of_lt hpos
  have hroom : a + room ≤ 2 ^ 32 := m.inside a _ hb
  have hdata : ∀ x ∈ es.map EnvironInfo.data,
      x ∈ Finset.range (2 ^ 32) \ Finset.Ico a (a + es.length * sizeofEnvironInfo) := by
    intro x hx
    obtain ⟨y, hy, rfl⟩ := List.mem_map.mp hx
    obtain ⟨r, d, hd, hs, hle⟩ := h.data y hy
    have hin : y.data + r ≤ 2 ^ 32 := m.inside _ _ hd
    have hne : y.data ≠ a := fun heq => by simp [heq ▸ hd] at hb
    rw [Finset.mem_sdiff, Finset.mem_range, Finset.mem_Ico]
    refine ⟨by omega, fun ⟨h₁, h₂⟩ => ?_⟩
    have hap : a + room ≤ y.data := m.apart _ _ _ _ hb hd (by omega)
    omega
  have hcard := Finset.card_le_card (s := (es.map EnvironInfo.data).toFinset)
    fun x hx => hdata x (List.mem_toFinset.mp hx)
  rw [List.toFinset_card_of_nodup h.distinct, List.length_map, Finset.card_sdiff_of_subset,
    Finset.card_range, Nat.card_Ico] at hcard
  · simp only [sizeofEnvironInfo, SMK_ENVNAME_LENGTH] at hcard hr ⊢
    omega
  · intro x hx
    rw [Finset.mem_Ico] at hx
    rw [Finset.mem_range]
    omega

end Represents

end Racoon.Env
