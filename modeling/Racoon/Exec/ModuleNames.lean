import Racoon.Machine
import Racoon.Libsmk.Strings

/-!
# Names of boot modules

`build_module` cuts the name of a process out of the command line of its module: the
part after the last `/` of the first word, in a buffer of `SMK_NAME_LENGTH` characters.
`init_modules` loads the modules in the order of the boot loader's table and stops at
the first that fails.
-/

namespace Racoon.Modules
open Strings

def SMK_NAME_LENGTH : ℕ := 64
def slash : ℤ := 47
def space : ℤ := 32

structure Module where
  modStart : ℕ
  modEnd : ℕ
  string : CString

/-- The loop of `kstrlen`. -/
def kstrlenFrom (cs : CString) : ℕ → ℕ → Outcome ℕ
  | 0, _ => .error .diverges
  | left + 1, ans => if cs ans = 0 then .ok ans else kstrlenFrom cs left (ans + 1)

def kstrlen (cs : CString) : Outcome ℕ := kstrlenFrom cs (2 ^ 32) 0

/-- The loop of `build_module`: where it has stopped, and the place after the last slash. -/
def scanName (commandLine : CString) : ℕ → ℕ → ℕ → ℕ × ℕ
  | 0, k, j => (k, j)
  | left + 1, k, j =>
    let j := if commandLine k = slash then k + 1 else j
    if commandLine k = space then (k, j) else scanName commandLine left (k + 1) j

/-- The buffer, which held `old`, after the copy. -/
def moduleName (old commandLine : CString) : Outcome CString := do
  let length ← kstrlen commandLine
  let (k, j) := scanName commandLine length 0 0
  let k := if SMK_NAME_LENGTH ≤ k - j then SMK_NAME_LENGTH - 1 else k - j
  .ok (Function.update (kstrncpy old (fun i => commandLine (j + i)) k) k 0)

section Loading
variable {σ : Type}

/-- `exec` is `exec_memory_region`, for `smk_process`. -/
def buildModule (exec : σ → CString → Module → Outcome (σ × ℤ)) (old : CString) (s : σ)
    (m : Module) : Outcome (σ × ℤ) := do
  let name ← moduleName old m.string
  let (s, pid) ← exec s name m
  .ok (s, if pid ≤ 0 then -1 else 0)

def initModules (exec : σ → CString → Module → Outcome (σ × ℤ)) (old : Module → CString) :
    List Module → σ → Outcome (σ × ℤ)
  | [], s => .ok (s, 0)
  | m :: ms, s => do
    let (s, rc) ← buildModule exec (old m) s m
    if rc ≠ 0 then .ok (s, -1) else initModules exec old ms s

/-- Modules are loaded in their order, up to the first that fails. -/
def loadAll (exec : σ → CString → Module → Outcome (σ × ℤ)) (name : Module → CString) :
    List Module → σ → Outcome (σ × ℤ)
  | [], s => .ok (s, 0)
  | m :: ms, s => do
    let (s, pid) ← exec s (name m) m
    if 0 < pid then loadAll exec name ms s else .ok (s, -1)

end Loading

/-- The string has `n` characters, which an `int` can count. -/
structure Ends (cs : CString) (n : ℕ) : Prop where
  nonzero : ∀ i < n, cs i ≠ 0
  zero : cs n = 0
  short : n < 2 ^ 31

/-- The file name in a command line of `n` characters: from `j` to `k`, in the first word and
after its last slash. -/
structure FileName (cs : CString) (n j k : ℕ) : Prop where
  start_le : j ≤ k
  end_le : k ≤ n
  word : ∀ i < k, cs i ≠ space
  word_end : k = n ∨ cs k = space
  start : j = 0 ∨ cs (j - 1) = slash
  plain : ∀ i, j ≤ i → i < k → cs i ≠ slash

/-- The process is called by the file name, cut to what the buffer holds. -/
def Named (cs : CString) (n : ℕ) (name : CString) : Prop :=
  ∃ j k, FileName cs n j k ∧
    (∀ i < min (k - j) (SMK_NAME_LENGTH - 1), name i = cs (j + i) ∧ name i ≠ 0) ∧
    name (min (k - j) (SMK_NAME_LENGTH - 1)) = 0

variable {cs : CString} {n : ℕ}

theorem FileName.unique {j k j' k' : ℕ} (h : FileName cs n j k) (h' : FileName cs n j' k') :
    j = j' ∧ k = k' := by
  have hends : ∀ {j k j' k'}, FileName cs n j k → FileName cs n j' k' → k' ≤ k := by
    intro j k j' k' h h'
    by_contra hlt
    rcases h.word_end with rfl | hspace
    · exact hlt h'.end_le
    · exact h'.word k (not_le.mp hlt) hspace
  obtain rfl : k = k' := le_antisymm (hends h' h) (hends h h')
  have hstarts : ∀ {j j'}, FileName cs n j k → FileName cs n j' k → j' ≤ j := by
    intro j j' h h'
    by_contra hlt
    have hle := h'.start_le
    rcases h'.start with rfl | hslash
    · exact hlt (Nat.zero_le j)
    · exact h.plain (j' - 1) (by omega) (by omega) hslash
  exact ⟨le_antisymm (hstarts h' h) (hstarts h h'), rfl⟩

theorem kstrlenFrom_eq (h : Ends cs n) {left i : ℕ} (hi : i ≤ n) (hl : n < left + i) :
    kstrlenFrom cs left i = .ok n := by
  induction left generalizing i with
  | zero => omega
  | succ left ih =>
    rw [kstrlenFrom]
    rcases hi.eq_or_lt with rfl | hlt
    · rw [if_pos h.zero]
    · rw [if_neg (h.nonzero i hlt)]
      exact ih hlt (by omega)

theorem kstrlen_eq (h : Ends cs n) : kstrlen cs = .ok n := by
  have hshort := h.short
  exact kstrlenFrom_eq h (Nat.zero_le n) (by omega)

/-- What holds at `k`, with the last slash before `j`, holds at the end of the loop. -/
theorem scanName_fileName {left k j : ℕ} (hk : k + left = n) (hjk : j ≤ k)
    (hword : ∀ i < k, cs i ≠ space) (hstart : j = 0 ∨ cs (j - 1) = slash)
    (hplain : ∀ i, j ≤ i → i < k → cs i ≠ slash) :
    FileName cs n (scanName cs left k j).2 (scanName cs left k j).1 := by
  induction left generalizing k j with
  | zero => exact ⟨hjk, hk.le, hword, .inl hk, hstart, hplain⟩
  | succ left ih =>
    rw [scanName]
    by_cases hspace : cs k = space
    · have hslash : cs k ≠ slash := by
        rw [hspace]
        decide
      rw [if_pos hspace, if_neg hslash]
      exact ⟨hjk, (Nat.le_add_right k _).trans hk.le, hword, .inr hspace, hstart, hplain⟩
    · rw [if_neg hspace]
      have hword' : ∀ i < k + 1, cs i ≠ space := by
        intro i hi
        rcases Nat.lt_succ_iff_lt_or_eq.mp hi with hlt | rfl
        · exact hword i hlt
        · exact hspace
      by_cases hslash : cs k = slash
      · rw [if_pos hslash]
        exact ih (by omega) le_rfl hword' (.inr hslash) fun i h₀ h => absurd h (not_lt.mpr h₀)
      · rw [if_neg hslash]
        refine ih (by omega) (by omega) hword' hstart fun i h₀ hi => ?_
        rcases Nat.lt_succ_iff_lt_or_eq.mp hi with hlt | rfl
        · exact hplain i h₀ hlt
        · exact hslash

theorem moduleName_named (h : Ends cs n) (old : CString) :
    ∃ name, moduleName old cs = .ok name ∧ Named cs n name := by
  have hfile : FileName cs n (scanName cs n 0 0).2 (scanName cs n 0 0).1 :=
    scanName_fileName (Nat.zero_add n) le_rfl (fun i hi => absurd hi (Nat.not_lt_zero i)) (.inl rfl)
      fun i _ hi => absurd hi (Nat.not_lt_zero i)
  rw [moduleName, kstrlen_eq h, ok_bind]
  generalize scanName cs n 0 0 = r at hfile ⊢
  obtain ⟨k, j⟩ := r
  have hcut : (if SMK_NAME_LENGTH ≤ k - j then SMK_NAME_LENGTH - 1 else k - j) =
      min (k - j) (SMK_NAME_LENGTH - 1) := by
    unfold SMK_NAME_LENGTH
    split_ifs <;> omega
  dsimp only
  rw [hcut]
  refine ⟨_, rfl, j, k, hfile, fun i hi => ?_, Function.update_self ..⟩
  have hend := hfile.end_le
  have hle : min (k - j) (SMK_NAME_LENGTH - 1) ≤ k - j := min_le_left _ _
  have hnonzero : ∀ l ≤ i, cs (j + l) ≠ 0 := fun l hl => h.nonzero _ (by omega)
  rw [Function.update_of_ne hi.ne, kstrncpy_apply]
  have hlength : i < (cut (fun l => cs (j + l)) (min (k - j) (SMK_NAME_LENGTH - 1))).length := by
    by_contra hc
    have hc := not_lt.mp hc
    exact hnonzero _ hc (cut_end (s := fun l => cs (j + l)) (by omega))
  rw [if_pos hlength]
  exact ⟨rfl, hnonzero i le_rfl⟩

/-- The boot modules are loaded in their order under their file names. -/
theorem modules_named {σ : Type} (exec : σ → CString → Module → Outcome (σ × ℤ))
    (old : Module → CString) {ms : List Module} (length : Module → ℕ)
    (h : ∀ m ∈ ms, Ends m.string (length m)) :
    ∃ name : Module → CString, (∀ m ∈ ms, Named m.string (length m) (name m)) ∧
      ∀ s, initModules exec old ms s = loadAll exec name ms s := by
  have hname : ∀ m, ∃ name, m ∈ ms →
      moduleName (old m) m.string = .ok name ∧ Named m.string (length m) name := by
    intro m
    by_cases hm : m ∈ ms
    · obtain ⟨name, hrun, hnamed⟩ := moduleName_named (h m hm) (old m)
      exact ⟨name, fun _ => ⟨hrun, hnamed⟩⟩
    · exact ⟨fun _ => 0, fun hc => absurd hc hm⟩
  choose name hname using hname
  refine ⟨name, fun m hm => (hname m hm).2, fun s => ?_⟩
  clear h
  induction ms generalizing s with
  | nil => rfl
  | cons m ms ih =>
    obtain ⟨hrun, -⟩ := hname m List.mem_cons_self
    have ih := ih fun x hx => hname x (List.mem_cons_of_mem m hx)
    rw [initModules, loadAll, buildModule, hrun, ok_bind]
    cases exec s (name m) m with
    | error f => rfl
    | ok r =>
      obtain ⟨t, pid⟩ := r
      rw [ok_bind, ok_bind]
      by_cases hpid : 0 < pid
      · simp [hpid, not_le.mpr hpid, ih]
      · simp [hpid, not_lt.mp hpid]

/-- The command line `/a/b c`. -/
def bootModule : Module := ⟨0x200000, 0x201000, fun i => [47, 97, 47, 98, 32, 99].getD i 0⟩

theorem modules_named_bootModule : ∃ name : Module → CString,
    name bootModule 0 = 98 ∧ name bootModule 1 = 0 ∧
    initModules (fun (s : ℕ) _ _ => .ok (s + 1, 2)) (fun _ _ => 0) [bootModule] 0 = .ok (1, 0) := by
  have hends : Ends bootModule.string 6 := ⟨by decide, by decide, by decide⟩
  have hfile : FileName bootModule.string 6 3 4 := by
    refine ⟨by decide, by decide, by decide, .inr rfl, .inr rfl, fun i h₀ h => ?_⟩
    obtain rfl : i = 3 := by omega
    decide
  obtain ⟨name, hnamed, hrun⟩ := @modules_named ℕ (fun s _ _ => .ok (s + 1, 2)) (fun _ _ => 0)
    [bootModule] (fun _ => 6) fun m hm => by rwa [List.mem_singleton.mp hm]
  obtain ⟨j, k, hfile', hchars, hzero⟩ := hnamed bootModule List.mem_cons_self
  obtain ⟨rfl, rfl⟩ := hfile'.unique hfile
  exact ⟨name, (hchars 0 (by decide)).1.trans rfl, hzero, (hrun 0).trans rfl⟩

end Racoon.Modules
