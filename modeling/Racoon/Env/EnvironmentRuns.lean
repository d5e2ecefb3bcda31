import Racoon.Env.Room
import Racoon.Lib.Run

/-!
# Runs of environment calls

The environments of all processes under any sequence of calls whose allocations
succeed. `environments` folds the calls over ordered maps, one for each process, and
the kernel's memory presents these maps through the three getters.
-/

namespace Racoon.Env
open Lib Strings

abbrev Variables := List (List ℤ × List UInt8)

/-- A buffer after the bytes `v` have been copied to its start. -/
def written (data : Buffer) (v : List UInt8) : Buffer := fun i => v[i]?.getD (data i)

theorem kmemcpy_eq_written (data d : Buffer) (n : ℕ) :
    kmemcpy data d n = written data (taken d n) := by
  funext i
  rw [kmemcpy, written, getElem?_taken]
  split_ifs <;> rfl

theorem take_taken {α : Type*} (d : ℕ → α) (n k : ℕ) :
    (taken d n).take k = taken d (min k n) := by
  simp [taken, ← List.map_take, List.take_range]

/-- What the getters of a process say when its variables are `vs`. -/
structure Presents (m : Memory) (proc : Process) (vs : Variables) : Prop where
  namesDiffer : (OrderedMap.keys vs).Nodup
  count : proc.environmentCount = vs.length
  get : ∀ name data size, getEnvironment m proc name data size =
    match OrderedMap.get? (key name) vs with
    | some v => .ok (SMK_OK, written data (v.take size), min size v.length)
    | none => .ok (SMK_NOT_FOUND, data, size)
  getSize : ∀ name size, getEnvironmentSize m proc name size =
    match OrderedMap.get? (key name) vs with
    | some v => .ok (SMK_OK, v.length)
    | none => .ok (SMK_NOT_FOUND, size)
  information : ∀ (i : ℕ) (v : List ℤ × List UInt8), vs[i]? = some v → ∀ name size, ∃ name',
    getEnvironmentInformation m proc i name size = .ok (SMK_OK, name', v.2.length) ∧
      key name' = v.1
  outside : ∀ id : ℤ, (id < 0 ∨ vs.length ≤ id) → ∀ name size,
    getEnvironmentInformation m proc id name size = .ok (SMK_NOT_FOUND, name, size)

namespace Represents
variable {m : Memory} {proc : Process} {es : List EnvironInfo}

/-- The entry that a search finds, if any, is the variable of the name. -/
theorem find_cases (h : Represents m proc es) (name : CString) :
    ∃ i, findFrom m proc.environment name 0 proc.environmentCount = .ok i ∧
      ((∃ (e : EnvironInfo) (room : ℕ) (d : Buffer), i < proc.environmentCount ∧
        entry m proc.environment i = .ok e ∧ m.block e.data = some ⟨room, .bytes d⟩ ∧
        e.size ≤ room ∧
        OrderedMap.get? (key name) (es.map (view m)) = some (taken d e.size)) ∨
      (¬ i < proc.environmentCount ∧
        OrderedMap.get? (key name) (es.map (view m)) = none)) := by
  refine ⟨_, h.findFrom_eq name, ?_⟩
  rw [OrderedMap.get?_eq, findIdx_views, List.getElem?_map, h.count]
  by_cases hi : es.findIdx (named name) < es.length
  · obtain ⟨room, d, hd, -, hroom⟩ := h.data _ (List.getElem_mem hi)
    refine .inl ⟨_, room, d, hi, h.entry_eq hi, hd, hroom, ?_⟩
    rw [List.getElem?_eq_getElem hi, Option.map_some, Option.map_some, view_eq hd]
  · refine .inr ⟨hi, ?_⟩
    rw [List.getElem?_eq_none (not_lt.mp hi)]
    rfl

theorem presents (h : Represents m proc es)
    (hn : (OrderedMap.keys (es.map (view m))).Nodup) :
    Presents m proc (es.map (view m)) where
  namesDiffer := hn
  count := by rw [h.count, List.length_map]
  get name data size := by
    obtain ⟨i, hi, ⟨e, room, d, hlt, he, hd, hroom, hget⟩ | ⟨hlt, hget⟩⟩ := h.find_cases name
    · have hmin : (if e.size > size then size else e.size) = min size e.size := by
        split_ifs <;> omega
      rw [getEnvironment, hi, ok_bind, if_pos hlt, he, ok_bind, hget]
      dsimp only
      rw [hmin, bytesAt_eq hd ((min_le_right _ _).trans hroom), ok_bind, kmemcpy_eq_written,
        take_taken, length_taken]
    · rw [getEnvironment, hi, ok_bind, if_neg hlt, hget]
  getSize name size := by
    obtain ⟨i, hi, ⟨e, room, d, hlt, he, hd, hroom, hget⟩ | ⟨hlt, hget⟩⟩ := h.find_cases name
    · rw [getEnvironmentSize, hi, ok_bind, if_pos hlt, he, ok_bind, hget]
      dsimp only
      rw [length_taken]
    · rw [getEnvironmentSize, hi, ok_bind, if_neg hlt, hget]
  information i v hv name size := by
    rw [List.getElem?_map, Option.map_eq_some_iff] at hv
    obtain ⟨e, he, rfl⟩ := hv
    obtain ⟨hi, rfl⟩ := List.getElem?_eq_some_iff.mp he
    obtain ⟨room, d, hd, -, -⟩ := h.data _ (List.getElem_mem hi)
    refine ⟨kstrncpy name es[i].name SMK_ENVNAME_LENGTH, ?_, ?_⟩
    · rw [getEnvironmentInformation, if_neg (by omega), if_neg (by rw [h.count]; omega),
        Int.toNat_natCast, h.entry_eq hi, ok_bind, view_eq hd, length_taken]
    · rw [key, cut_kstrncpy]
      rfl
  outside id hid name size := by
    rw [List.length_map, ← h.count] at hid
    rw [getEnvironmentInformation]
    split_ifs with h₁ h₂
    · rfl
    · rfl
    · omega

end Represents

structure State where
  mem : Memory
  proc : ℕ → Process

/-- The processes are given by number. -/
inductive Call
  | set (p : ℕ) (name : CString) (data : Buffer) (size : ℕ)
  | remove (p : ℕ) (name : CString)
  | release (p : ℕ)
  | clone (dest src : ℕ)

structure Input where
  call : Call
  kalloc : Kalloc

def Call.Allowed : Call → Prop
  | .set _ _ _ size => 0 < size
  | .remove _ _ => True
  | .release _ => True
  | .clone dest src => dest ≠ src

/-- The process a call is about. -/
def Call.target : Call → ℕ
  | .set p _ _ _ => p
  | .remove p _ => p
  | .release p => p
  | .clone dest _ => dest

def answer (s : State) (k : Kalloc) : Call → Outcome (ℤ × Process × Memory)
  | .set p name data size => setEnvironment k s.mem (s.proc p) (some name) (some data) size
  | .remove p name => removeEnvironment k s.mem (s.proc p) name
  | .release p => releaseEnvironment s.mem (s.proc p)
  | .clone dest src => cloneEnvironment k s.mem (s.proc dest) (s.proc src)

/-- A run starts with no variables set, and no call of it has an allocation refused. -/
def environ : System State Input Fault where
  Init s := s.mem.refused = false ∧ ∀ p, s.proc p = ⟨none, 0⟩
  Guard s i := i.call.Allowed ∧
    ∀ rc proc m, answer s i.kalloc i.call = .ok (rc, proc, m) → m.refused = false
  step s i := do
    let (_, proc, m) ← answer s i.kalloc i.call
    .ok ⟨m, Function.update s.proc i.call.target proc⟩

/-- The variables of the target of a call after it. -/
def Call.result (f : ℕ → Variables) : Call → Variables
  | .set p name data size => OrderedMap.put (key name) (taken data size) (f p)
  | .remove p name => OrderedMap.remove (key name) (f p)
  | .release _ => []
  | .clone _ src => f src

def environments (is : List Input) : ℕ → Variables :=
  is.foldl (fun f i => Function.update f i.call.target (i.call.result f)) fun _ => []

theorem environments_snoc (is : List Input) (i : Input) :
    environments (is ++ [i]) =
      Function.update (environments is) i.call.target (i.call.result (environments is)) :=
  List.foldl_concat ..

theorem nodup_environments (is : List Input) (p : ℕ) :
    (OrderedMap.keys (environments is p)).Nodup := by
  induction is using List.reverseRecOn generalizing p with
  | nil => exact List.nodup_nil
  | append_singleton is i ih =>
    rw [environments_snoc]
    by_cases hp : p = i.call.target
    · subst hp
      rw [Function.update_self]
      cases i.call with
      | set p name data size => exact OrderedMap.nodup_put (ih p)
      | remove p name => exact OrderedMap.nodup_remove (ih p)
      | release p => exact List.nodup_nil
      | clone dest src => exact ih src
    · rw [Function.update_of_ne hp]
      exact ih p

/-- The entries `es` of each process stand in blocks of its own. -/
structure Separate (s : State) (es : ℕ → List EnvironInfo) : Prop where
  represents : ∀ p, Represents s.mem (s.proc p) (es p)
  apart : ∀ p q, p ≠ q → (owned (s.proc p) (es p)).Disjoint (owned (s.proc q) (es q))

theorem Separate.none {s : State} (h : ∀ p, s.proc p = ⟨none, 0⟩) : Separate s fun _ => [] where
  represents p := by
    rw [h p]
    exact .nil _
  apart p q _ := by simp [h p, owned]

/-- A change within the blocks of one process leaves those of the others. -/
theorem Separate.change {s : State} {es : ℕ → List EnvironInfo} (h : Separate s es) {p : ℕ}
    {m : Memory} {proc : Process} {ds : List EnvironInfo} (hR : Represents m proc ds)
    (hF : Frame s.mem m (owned (s.proc p) (es p)) (owned proc ds)) :
    Separate ⟨m, Function.update s.proc p proc⟩ (Function.update es p ds) := by
  have hother : ∀ q, q ≠ p → Represents m (s.proc q) (es q) ∧
      (es q).map (view m) = (es q).map (view s.mem) ∧
      (owned (s.proc q) (es q)).Disjoint (owned proc ds) :=
    fun q hq => (h.represents q).frame hF (h.apart q p hq)
  refine ⟨fun q => ?_, fun q r hqr => ?_⟩
  · by_cases hq : q = p
    · subst hq
      simpa using hR
    · simpa [hq] using (hother q hq).1
  · by_cases hq : q = p
    · subst hq
      simpa [hqr.symm] using (hother r hqr.symm).2.2.symm
    · by_cases hrp : r = p
      · subst hrp
        simpa [hq] using (hother q hq).2.2
      · simpa [hq, hrp] using h.apart q r hqr

/-- The entries `es` of each process stand in blocks of its own and show the variables `f`. -/
structure Holds (s : State) (es : ℕ → List EnvironInfo) (f : ℕ → Variables) : Prop where
  represents : ∀ p, Represents s.mem (s.proc p) (es p)
  apart : ∀ p q, p ≠ q → (owned (s.proc p) (es p)).Disjoint (owned (s.proc q) (es q))
  views : ∀ p, (es p).map (view s.mem) = f p
  refused : s.mem.refused = false

theorem Holds.separate {s : State} {es : ℕ → List EnvironInfo} {f : ℕ → Variables}
    (h : Holds s es f) : Separate s es :=
  ⟨h.represents, h.apart⟩

theorem Holds.init {s : State} (h : environ.Init s) : Holds s (fun _ => []) fun _ => [] where
  represents := (Separate.none h.2).represents
  apart := (Separate.none h.2).apart
  views _ := rfl
  refused := h.1

/-- A change within the blocks of one process leaves the variables of the others. -/
theorem Holds.change {s : State} {es : ℕ → List EnvironInfo} {f : ℕ → Variables}
    (h : Holds s es f) {p : ℕ} {m : Memory} {proc : Process} {ds : List EnvironInfo}
    (hR : Represents m proc ds) (hF : Frame s.mem m (owned (s.proc p) (es p)) (owned proc ds))
    (hr : m.refused = false) :
    Holds ⟨m, Function.update s.proc p proc⟩ (Function.update es p ds)
      (Function.update f p (ds.map (view m))) := by
  have hsep := h.separate.change hR hF
  refine ⟨hsep.represents, hsep.apart, fun q => ?_, hr⟩
  by_cases hq : q = p
  · subst hq
    simp
  · have hother := (h.represents q).frame hF (h.apart q p hq)
    rw [Function.update_of_ne hq, Function.update_of_ne hq, hother.2.1, h.views q]

theorem Holds.step {s : State} {es : ℕ → List EnvironInfo} {is : List Input}
    (h : Holds s es (environments is)) {i : Input} (hg : environ.Guard s i) :
    ∃ t ds, environ.step s i = .ok t ∧
      Holds t ds (environments (is ++ [i])) := by
  obtain ⟨hallowed, hmem⟩ := hg
  suffices hs : ∃ rc proc m ds, answer s i.kalloc i.call = .ok (rc, proc, m) ∧
      Represents m proc ds ∧
      Frame s.mem m (owned (s.proc i.call.target) (es i.call.target)) (owned proc ds) ∧
      (m.refused = true ∨ ds.map (view m) = i.call.result (environments is)) by
    obtain ⟨rc, proc, m, ds, ha, hR, hF, hv⟩ := hs
    have hr := hmem rc proc m ha
    rw [environments_snoc, ← hv.resolve_left (by simp [hr])]
    refine ⟨_, _, ?_, h.change hR hF hr⟩
    change answer s i.kalloc i.call >>= _ = _
    rw [ha, ok_bind]
  obtain ⟨call, k⟩ := i
  cases call with
  | set p name data size =>
    obtain ⟨rc, proc, m, ds, ha, hset⟩ := setEnvironment_spec k (h.represents p) name data hallowed
    refine ⟨rc, proc, m, ds, ha, hset.represents, hset.frame, hset.result.imp And.right ?_⟩
    rintro ⟨-, -, hv⟩
    rw [hv, h.views p]
    rfl
  | remove p name =>
    obtain ⟨rc, proc, m, ds, ha, hs, hv⟩ := removeEnvironment_spec k (h.represents p) name
    refine ⟨rc, proc, m, ds, ha, hs.represents, hs.frame, .inr ?_⟩
    rw [hv, h.views p]
    rfl
  | release p =>
    obtain ⟨m, ha, hs⟩ := releaseEnvironment_spec (h.represents p)
    exact ⟨_, _, m, [], ha, hs.represents, hs.frame, .inr rfl⟩
  | clone dest src =>
    have hkeys : (OrderedMap.keys ((es src).map (view s.mem))).Nodup := by
      rw [h.views src]
      exact nodup_environments is src
    obtain ⟨rc, proc, m, ds, ha, hR, hF, hv⟩ := cloneEnvironment_spec k (h.represents dest)
      (h.represents src) (h.apart src dest hallowed.symm) hkeys
    refine ⟨rc, proc, m, ds, ha, hR, hF, hv.imp_right fun hv => ?_⟩
    rw [hv.2, h.views src]
    rfl

theorem Holds.of_steps {s t : State} {is : List Input} (hs : environ.Init s)
    (h : environ.Steps s is t) : ∃ es, Holds t es (environments is) := by
  induction h with
  | nil => exact ⟨fun _ => [], .init hs⟩
  | snoc _ hg ht ih =>
    obtain ⟨es, hes⟩ := ih
    obtain ⟨u, ds, hu, hds⟩ := hes.step hg
    rw [ht] at hu
    cases hu
    exact ⟨ds, hds⟩

/-- What a call does to the variables of the processes. -/
def Changes (f f' : ℕ → Variables) : Call → Prop
  | .set p name data size =>
    OrderedMap.get? (key name) (f' p) = some (taken data size) ∧
    (∀ n, n ≠ key name → OrderedMap.get? n (f' p) = OrderedMap.get? n (f p)) ∧
    OrderedMap.keys (f' p) = (if key name ∈ OrderedMap.keys (f p) then OrderedMap.keys (f p)
      else OrderedMap.keys (f p) ++ [key name]) ∧
    ∀ q, q ≠ p → f' q = f q
  | .remove p name =>
    OrderedMap.get? (key name) (f' p) = none ∧
    (∀ n, n ≠ key name → OrderedMap.get? n (f' p) = OrderedMap.get? n (f p)) ∧
    OrderedMap.keys (f' p) = (OrderedMap.keys (f p)).filter (fun n => n ≠ key name) ∧
    ∀ q, q ≠ p → f' q = f q
  | .release p => f' p = [] ∧ ∀ q, q ≠ p → f' q = f q
  | .clone dest src => f' dest = f src ∧ ∀ q, q ≠ dest → f' q = f q

theorem changes_environments (is : List Input) (i : Input) :
    Changes (environments is) (environments (is ++ [i])) i.call := by
  rw [environments_snoc]
  obtain ⟨call, k⟩ := i
  have hother : ∀ p v q, q ≠ p → Function.update (environments is) p v q = environments is q :=
    fun p v q hq => Function.update_of_ne hq ..
  cases call with
  | set p name data size =>
    simp only [Changes, Call.target, Call.result, Function.update_self]
    refine ⟨?_, fun n hn => ?_, ?_, hother p _⟩
    · rw [OrderedMap.get?_put, if_pos rfl]
    · rw [OrderedMap.get?_put, if_neg hn]
    · rw [OrderedMap.keys_put]
      split_ifs <;> rfl
  | remove p name =>
    simp only [Changes, Call.target, Call.result, Function.update_self]
    refine ⟨?_, fun n hn => ?_, ?_, hother p _⟩
    · rw [OrderedMap.get?_remove (nodup_environments is p), if_pos rfl]
    · rw [OrderedMap.get?_remove (nodup_environments is p), if_neg hn]
    · exact OrderedMap.keys_remove_eq_filter (nodup_environments is p) _
  | release p => exact ⟨Function.update_self .., hother p _⟩
  | clone dest src => exact ⟨Function.update_self .., hother dest _⟩

/-- The environment of every process is an ordered map in every run, and each call that the run
may go on with succeeds and changes the maps as it should. -/
theorem environment_ordered_map {s t : State} {is : List Input} (hs : environ.Init s)
    (h : environ.Steps s is t) :
    (∀ p, Presents t.mem (t.proc p) (environments is p)) ∧
    ∀ i, environ.Guard t i → ∃ u, environ.step t i = .ok u ∧
      (∀ p, Presents u.mem (u.proc p) (environments (is ++ [i]) p)) ∧
      Changes (environments is) (environments (is ++ [i])) i.call := by
  have hpresents : ∀ {t is es}, Holds t es (environments is) →
      ∀ p, Presents t.mem (t.proc p) (environments is p) := by
    intro t is es hes p
    have hp := (hes.represents p).presents (by
      rw [hes.views p]
      exact nodup_environments is p)
    rwa [hes.views p] at hp
  obtain ⟨es, hes⟩ := Holds.of_steps hs h
  refine ⟨hpresents hes, fun i hg => ?_⟩
  obtain ⟨u, ds, hu, hds⟩ := hes.step hg
  exact ⟨u, hu, hpresents hds, changes_environments is i⟩

def noBlocks : Memory where
  block _ := none
  refused := false
  inside _ _ h := by simp at h
  apart _ _ _ _ h := by simp at h

def noVariables : State := ⟨noBlocks, fun _ => ⟨none, 0⟩⟩

theorem length_environments (is : List Input) (p : ℕ) : (environments is p).length ≤ is.length := by
  induction is using List.reverseRecOn generalizing p with
  | nil => exact le_rfl
  | append_singleton is i ih =>
    rw [environments_snoc, List.length_append, List.length_singleton]
    by_cases hp : p = i.call.target
    · subst hp
      rw [Function.update_self]
      cases i.call with
      | set p name data size =>
        have hp := ih p
        exact (OrderedMap.length_put_le _ _ _).trans (by omega)
      | remove p name => exact (List.length_eraseP_le).trans ((ih p).trans (Nat.le_succ _))
      | release p => exact Nat.zero_le _
      | clone dest src => exact (ih src).trans (Nat.le_succ _)
    · rw [Function.update_of_ne hp]
      exact (ih p).trans (Nat.le_succ _)

/-- A variable of at most a page is set, or one is removed. -/
def Call.Small : Call → Prop
  | .set _ _ _ size => 0 < size ∧ size ≤ 4096
  | .remove _ _ => True
  | .release _ => False
  | .clone _ _ => False

theorem Call.Small.allowed {c : Call} (h : c.Small) : c.Allowed := by
  cases c with
  | set p name data size => exact h.1
  | remove p name => trivial
  | release p => trivial
  | clone dest src => exact h.elim

/-- Such a call takes less than `2 ^ 20` bytes while there are few variables. -/
theorem Room.answer {n : ℕ} {s : State} (h : Room (2 ^ 20 + n) s.mem) {c : Call}
    (hc : c.Small) (hcount : (s.proc c.target).environmentCount < 1000) {rc : ℤ} {proc : Process}
    {m : Memory} (ha : answer s bump c = .ok (rc, proc, m)) : Room n m := by
  have harray : ∀ n ≤ 1000, arrayBytes n ≤ 1032000 := fun n hn =>
    (Nat.mod_le _ _).trans (by rw [sizeofEnvironInfo, SMK_ENVNAME_LENGTH]; omega)
  cases c with
  | set p name data size =>
    have hlonger := harray _ (Nat.succ_le_of_lt hcount)
    have hsize := hc.2
    change arrayBytes ((s.proc p).environmentCount + 1) ≤ 1032000 at hlonger
    exact (h.mono (by omega)).setEnvironment hc.1 ha
  | remove p name =>
    have hshorter := harray _ ((Nat.sub_le _ 1).trans hcount.le)
    change arrayBytes ((s.proc p).environmentCount - 1) ≤ 1032000 at hshorter
    exact (h.mono (by omega)).removeEnvironment ha
  | release p => exact hc.elim
  | clone dest src => exact hc.elim

/-- A thousand such calls leave room in a memory that was empty. -/
theorem exists_run (cs : List Call) (hlen : cs.length ≤ 1000) (hcs : ∀ c ∈ cs, c.Small) :
    ∃ t, environ.Steps noVariables (cs.map fun c => ⟨c, bump⟩) t ∧
      Room ((1000 - cs.length) * 2 ^ 20) t.mem := by
  induction cs using List.reverseRecOn with
  | nil =>
    have hbelow : noBlocks.Below 0 := fun a B h => by cases h
    exact ⟨_, .nil _, rfl, 0, hbelow, by decide⟩
  | append_singleton cs c ih =>
    rw [List.length_append, List.length_singleton] at hlen
    obtain ⟨t, hrun, hroom⟩ := ih (by omega) fun c hc => hcs c (List.mem_append_left _ hc)
    obtain ⟨es, hes⟩ := Holds.of_steps ⟨rfl, fun _ => rfl⟩ hrun
    have hcount : ∀ p, (t.proc p).environmentCount ≤ cs.length := fun p => by
      rw [(hes.represents p).count, ← List.length_map (view t.mem), hes.views p]
      exact (length_environments _ p).trans (List.length_map _).le
    have hsmall := hcs c (by simp)
    have hnext : ∀ rc proc m, answer t bump c = .ok (rc, proc, m) →
        Room ((1000 - (cs.length + 1)) * 2 ^ 20) m := fun rc proc m h =>
      (hroom.mono (by omega)).answer hsmall ((hcount _).trans_lt (by omega)) h
    have hg : environ.Guard t ⟨c, bump⟩ :=
      ⟨hsmall.allowed, fun rc proc m h => (hnext rc proc m h).1⟩
    obtain ⟨u, -, hu, -⟩ := hes.step hg
    refine ⟨u, ?_, ?_⟩
    · rw [List.map_append, List.map_singleton]
      exact hrun.snoc hg hu
    · obtain ⟨⟨rc, proc, m⟩, ha, hu⟩ := bind_eq_ok.mp hu
      cases hu
      rw [List.length_append, List.length_singleton]
      exact hnext rc proc m ha

def nameA : CString := fun i => if i = 0 then 65 else 0
def nameB : CString := fun i => if i = 0 then 66 else 0

def dataSmk : Buffer := fun i => [115, 109, 107].getD i 0
def dataNo : Buffer := fun i => [110, 111].getD i 0

/-- Two variables are set, the first is overwritten and the second removed. -/
def twoNames : List Call :=
  [.set 0 nameA dataSmk 4, .set 0 nameB dataSmk 4, .set 0 nameA dataNo 3, .remove 0 nameB]

theorem environment_ordered_map_twoNames : ∃ t,
    environ.Steps noVariables (twoNames.map fun c => ⟨c, bump⟩) t ∧
    (∀ p, Presents t.mem (t.proc p) (environments (twoNames.map fun c => ⟨c, bump⟩) p)) ∧
    environments (twoNames.map fun c => ⟨c, bump⟩) 0 = [([65], [110, 111, 0])] := by
  obtain ⟨t, hrun, -⟩ := exists_run twoNames (by decide) (by simp [twoNames, Call.Small])
  exact ⟨t, hrun, (environment_ordered_map ⟨rfl, fun _ => rfl⟩ hrun).1, by decide⟩

end Racoon.Env
