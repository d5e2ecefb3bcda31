import Racoon.Libsmk.Strings
import Racoon.Machine

/-!
# Memory from `kmalloc`

The blocks that `kmalloc` has handed out and not got back, each with the size
asked for, as the functions of `mm/liballoc.c` leave them, which `init` installs
behind `kmalloc`, `kfree` and `krealloc`. Where a block stands that answers a
request, if one does, is given as `slot`. No two blocks overlap and all of them
lie in the 32-bit address space. `refused` records that some request has been
answered with `NULL`. To give back or to reallocate what is no block is a fault.
-/

namespace Racoon.Env
open Strings

/-- The memory behind a `void*`. -/
abbrev Buffer := ℕ → UInt8

def SMK_ENVNAME_LENGTH : ℕ := 1024

structure EnvironInfo where
  name : CString
  size : ℕ
  data : ℕ

def sizeofEnvironInfo : ℕ := SMK_ENVNAME_LENGTH + 4 + 4

/-- What a block is used for. -/
inductive Contents
  | bytes (b : Buffer)
  | environ (env : ℕ → EnvironInfo)

structure Block where
  room : ℕ
  contents : Contents

@[ext] structure Memory where
  block : ℕ → Option Block
  refused : Bool
  inside : ∀ a A, block a = some A → a + A.room ≤ 2 ^ 32
  apart : ∀ a b A B, block a = some A → block b = some B → a < b → a + A.room ≤ b

namespace Memory

/-- A slot of `room` bytes at `a` that nothing uses. -/
structure Fits (m : Memory) (a room : ℕ) : Prop where
  fresh : m.block a = none
  inside : a + room ≤ 2 ^ 32
  below : ∀ b B, m.block b = some B → b < a → b + B.room ≤ a
  above : ∀ b B, m.block b = some B → a < b → a + room ≤ b

def refuse (m : Memory) : Memory := { m with refused := true }

def alloc (m : Memory) {a room : ℕ} (h : m.Fits a room) (c : Contents) : Memory where
  block := Function.update m.block a (some ⟨room, c⟩)
  refused := m.refused
  inside x X hx := by
    by_cases hxa : x = a
    · subst hxa
      rw [Function.update_self, Option.some.injEq] at hx
      exact hx ▸ h.inside
    · rw [Function.update_of_ne hxa] at hx
      exact m.inside x X hx
  apart x y X Y hx hy hxy := by
    by_cases hxa : x = a
    · subst hxa
      rw [Function.update_self, Option.some.injEq] at hx
      rw [Function.update_of_ne hxy.ne'] at hy
      exact hx ▸ h.above y Y hy hxy
    · rw [Function.update_of_ne hxa] at hx
      by_cases hya : y = a
      · exact hya ▸ h.below x X hx (hya ▸ hxy)
      · rw [Function.update_of_ne hya] at hy
        exact m.apart x y X Y hx hy hxy

def free (m : Memory) (a : ℕ) : Memory where
  block := Function.update m.block a none
  refused := m.refused
  inside x X hx := by
    by_cases hxa : x = a
    · simp [hxa] at hx
    · rw [Function.update_of_ne hxa] at hx
      exact m.inside x X hx
  apart x y X Y hx hy hxy := by
    by_cases hxa : x = a
    · simp [hxa] at hx
    · by_cases hya : y = a
      · simp [hya] at hy
      · rw [Function.update_of_ne hxa] at hx
        rw [Function.update_of_ne hya] at hy
        exact m.apart x y X Y hx hy hxy

theorem block_of_change {m : Memory} {a x : ℕ} {f : Block → Block} (hf : ∀ b, (f b).room ≤ b.room)
    {X : Block} (h : Function.update m.block a ((m.block a).map f) x = some X) :
    ∃ B, m.block x = some B ∧ X.room ≤ B.room := by
  by_cases hxa : x = a
  · subst hxa
    rw [Function.update_self, Option.map_eq_some_iff] at h
    obtain ⟨B, hB, rfl⟩ := h
    exact ⟨B, hB, hf B⟩
  · rw [Function.update_of_ne hxa] at h
    exact ⟨X, h, le_rfl⟩

/-- A change of the block at `a` that takes no more room. -/
def change (m : Memory) (a : ℕ) (f : Block → Block) (hf : ∀ b, (f b).room ≤ b.room) : Memory where
  block := Function.update m.block a ((m.block a).map f)
  refused := m.refused
  inside x X hx := by
    obtain ⟨B, hB, hle⟩ := block_of_change hf hx
    have := m.inside x B hB
    omega
  apart x y X Y hx hy hxy := by
    obtain ⟨B, hB, hle⟩ := block_of_change hf hx
    obtain ⟨C, hC, -⟩ := block_of_change hf hy
    have := m.apart x y B C hB hC hxy
    omega

/-- Other contents for the block at `a`. -/
def write (m : Memory) (a : ℕ) (c : Contents) : Memory :=
  m.change a (fun b => ⟨b.room, c⟩) fun _ => le_rfl

/-- `min->req_size = size;` -/
def shrink (m : Memory) (a size : ℕ) : Memory :=
  m.change a (fun b => ⟨min b.room size, b.contents⟩) fun b => min_le_left b.room size

@[simp] theorem block_refuse (m : Memory) : m.refuse.block = m.block := rfl
@[simp] theorem refused_free (m : Memory) (a : ℕ) : (m.free a).refused = m.refused := rfl
@[simp] theorem refused_alloc (m : Memory) {a room : ℕ} (h : m.Fits a room) (c : Contents) :
    (m.alloc h c).refused = m.refused := rfl

theorem block_alloc (m : Memory) {a room : ℕ} (h : m.Fits a room) (c : Contents) (x : ℕ) :
    (m.alloc h c).block x = if x = a then some ⟨room, c⟩ else m.block x :=
  Function.update_apply ..

theorem block_free (m : Memory) (a x : ℕ) :
    (m.free a).block x = if x = a then none else m.block x :=
  Function.update_apply ..

theorem block_write {m : Memory} {a : ℕ} {b : Block} (h : m.block a = some b) (c : Contents)
    (x : ℕ) : (m.write a c).block x = if x = a then some ⟨b.room, c⟩ else m.block x := by
  change Function.update m.block a ((m.block a).map _) x = _
  rw [Function.update_apply, h]
  rfl

theorem block_shrink {m : Memory} {a size : ℕ} {b : Block} (h : m.block a = some b)
    (hle : size ≤ b.room) (x : ℕ) :
    (m.shrink a size).block x = if x = a then some ⟨size, b.contents⟩ else m.block x := by
  change Function.update m.block a ((m.block a).map _) x = _
  rw [Function.update_apply, h, Option.map_some, min_eq_right hle]

theorem write_write {m : Memory} {a : ℕ} {b : Block} (h : m.block a = some b) (c d : Contents) :
    (m.write a c).write a d = m.write a d := by
  have ha : (m.write a c).block a = some ⟨b.room, c⟩ := by rw [block_write h, if_pos rfl]
  ext1
  · funext x
    rw [block_write ha, block_write h, block_write h]
    split_ifs <;> rfl
  · rfl

end Memory

/-- The place that there is for a request, and the bytes that stand there before. -/
structure Kalloc where
  slot : (m : Memory) → (size : ℕ) → Option { a : ℕ // m.Fits a size }
  litter : Buffer
  litterInfo : ℕ → EnvironInfo

def kmalloc (k : Kalloc) (m : Memory) (size : ℕ) (c : Contents) : Outcome (Option ℕ × Memory) :=
  match k.slot m size with
  | none => .ok (none, m.refuse)
  | some a => .ok (some a.1, m.alloc a.2 c)

def kfree (m : Memory) (a : ℕ) : Outcome Memory := do
  assert (m.block a ≠ none)
  .ok (m.free a)

def bytesAt (m : Memory) (a n : ℕ) : Outcome Buffer := do
  let b ← deref (m.block a)
  match b.contents with
  | .bytes d => if n ≤ b.room then .ok d else .error .badAccess
  | .environ _ => .error .badAccess

def kmemcpy (dst src : Buffer) (n : ℕ) : Buffer := fun i => if i < n then src i else dst i

def copyInto (m : Memory) (a : ℕ) (src : Buffer) (n : ℕ) : Outcome Memory := do
  let dst ← bytesAt m a n
  .ok (m.write a (.bytes (kmemcpy dst src n)))

/-- The array behind a pointer, as far as its first `n` entries. -/
def environAt (m : Memory) (env : Option ℕ) (n : ℕ) : Outcome (ℕ × (ℕ → EnvironInfo)) := do
  let a ← deref env
  let b ← deref (m.block a)
  match b.contents with
  | .environ e => if n * sizeofEnvironInfo ≤ b.room then .ok (a, e) else .error .badAccess
  | .bytes _ => .error .badAccess

def entry (m : Memory) (env : Option ℕ) (i : ℕ) : Outcome EnvironInfo := do
  let (_, e) ← environAt m env (i + 1)
  .ok (e i)

def setEntry (m : Memory) (env : Option ℕ) (i : ℕ) (x : EnvironInfo) : Outcome Memory := do
  let (a, e) ← environAt m env (i + 1)
  .ok (m.write a (.environ (Function.update e i x)))

/-- The copy of the `room` bytes of an array into a larger block. -/
def movedEntries (e litter : ℕ → EnvironInfo) (room : ℕ) : ℕ → EnvironInfo :=
  fun i => if (i + 1) * sizeofEnvironInfo ≤ room then e i else litter i

def moved (litter : ℕ → EnvironInfo) (b : Block) : Contents :=
  match b.contents with
  | .bytes d => .bytes d
  | .environ e => .environ (movedEntries e litter b.room)

/-- A refused request is not noticed: the copy to `NULL` goes to the low memory, which is mapped
but is no block, and the old block is freed. -/
def krealloc (k : Kalloc) (m : Memory) (ptr : Option ℕ) (size : ℕ) :
    Outcome (Option ℕ × Memory) :=
  if size = 0 then
    match ptr with
    -- to free `NULL` is only warned of
    | none => .ok (none, m)
    | some a => do
      let m ← kfree m a
      .ok (none, m)
  else
    match ptr with
    | none => kmalloc k m size (.environ k.litterInfo)
    | some a => do
      let b ← deref (m.block a)
      if size ≤ b.room then .ok (some a, m.shrink a size)
      else do
        let (p, m) ← kmalloc k m size (moved k.litterInfo b)
        let m ← kfree m a
        .ok (p, m)

theorem kmalloc_cases (k : Kalloc) (m : Memory) (size : ℕ) (c : Contents) :
    kmalloc k m size c = .ok (none, m.refuse) ∨
    ∃ a, ∃ hf : m.Fits a size, kmalloc k m size c = .ok (some a, m.alloc hf c) := by
  rw [kmalloc]
  cases k.slot m size with
  | none => exact .inl rfl
  | some a => exact .inr ⟨a.1, a.2, rfl⟩

theorem krealloc_null (k : Kalloc) (m : Memory) {size : ℕ} (h : size ≠ 0) :
    krealloc k m none size = kmalloc k m size (.environ k.litterInfo) := by
  rw [krealloc, if_neg h]

theorem krealloc_some (k : Kalloc) {m : Memory} {a size : ℕ} {b : Block} (h : size ≠ 0)
    (hb : m.block a = some b) :
    krealloc k m (some a) size =
      if size ≤ b.room then .ok (some a, m.shrink a size)
      else (do
        let (p, m) ← kmalloc k m size (moved k.litterInfo b)
        let m ← kfree m a
        .ok (p, m)) := by
  rw [krealloc, if_neg h]
  dsimp only
  rw [hb, deref_some, ok_bind]

theorem kfree_eq {m : Memory} {a : ℕ} (h : m.block a ≠ none) : kfree m a = .ok (m.free a) := by
  rw [kfree, assert_of h, ok_bind]

theorem bytesAt_eq {m : Memory} {a n room : ℕ} {d : Buffer}
    (h : m.block a = some ⟨room, .bytes d⟩) (hn : n ≤ room) : bytesAt m a n = .ok d := by
  simp [bytesAt, h, hn]

theorem copyInto_eq {m : Memory} {a n room : ℕ} {d : Buffer}
    (h : m.block a = some ⟨room, .bytes d⟩) (hn : n ≤ room) (src : Buffer) :
    copyInto m a src n = .ok (m.write a (.bytes (kmemcpy d src n))) := by
  rw [copyInto, bytesAt_eq h hn, ok_bind]

theorem environAt_eq {m : Memory} {a n room : ℕ} {e : ℕ → EnvironInfo}
    (h : m.block a = some ⟨room, .environ e⟩) (hn : n * sizeofEnvironInfo ≤ room) :
    environAt m (some a) n = .ok (a, e) := by
  simp [environAt, h, hn]

theorem entry_eq {m : Memory} {a i room : ℕ} {e : ℕ → EnvironInfo}
    (h : m.block a = some ⟨room, .environ e⟩) (hi : (i + 1) * sizeofEnvironInfo ≤ room) :
    entry m (some a) i = .ok (e i) := by
  rw [entry, environAt_eq h hi, ok_bind]

theorem setEntry_eq {m : Memory} {a i room : ℕ} {e : ℕ → EnvironInfo}
    (h : m.block a = some ⟨room, .environ e⟩) (hi : (i + 1) * sizeofEnvironInfo ≤ room)
    (x : EnvironInfo) :
    setEntry m (some a) i x = .ok (m.write a (.environ (Function.update e i x))) := by
  rw [setEntry, environAt_eq h hi, ok_bind]

end Racoon.Env
