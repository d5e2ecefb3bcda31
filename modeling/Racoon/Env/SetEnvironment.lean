import Racoon.Env.Environment

/-!
# Setting a variable

`set_environment` gives the variable new data where it stands or adds it at the
end of the array. A request that is refused leaves the process with what it had,
or with nothing when it was the array that could not grow.
-/

namespace Racoon.Env
open Lib Strings

/-- Reallocation to a larger size: the entries are kept, wherever the array stands then. -/
theorem krealloc_grow (k : Kalloc) {m : Memory} {proc : Process} {es : List EnvironInfo}
    (h : Represents m proc es) {n : ℕ} (hn : es.length ≤ n) (hpos : 0 < n) :
    ∃ p m', krealloc k m proc.environment (n * sizeofEnvironInfo) = .ok (p, m') ∧
      (∀ x, p ≠ some x → proc.environment ≠ some x → m'.block x = m.block x) ∧
      (p = none ∧ m'.refused = true ∨
        ∃ a, p = some a ∧ m'.refused = m.refused ∧ ArrayAt m' a n es ∧
          (proc.environment = some a ∨ m.block a = none)) := by
  have hsize : n * sizeofEnvironInfo ≠ 0 := (Nat.mul_pos hpos (by decide)).ne'
  cases henv : proc.environment with
  | none =>
    have hes : es = [] := h.empty henv
    subst hes
    rw [krealloc_null k m hsize]
    rcases kmalloc_cases k m (n * sizeofEnvironInfo) (.environ k.litterInfo) with hk | ⟨a, hf, hk⟩
    · exact ⟨none, m.refuse, hk, fun _ _ _ => rfl, .inl ⟨rfl, rfl⟩⟩
    · refine ⟨some a, _, hk, fun x hx _ => ?_, .inr ⟨a, rfl, rfl, ?_, .inr hf.fresh⟩⟩
      · rw [Memory.block_alloc, if_neg fun e => hx (by rw [e])]
      · exact ⟨_, _, by rw [Memory.block_alloc, if_pos rfl], le_rfl, Nat.zero_le _, rfl⟩
  | some b =>
    obtain ⟨room, e, hb, hr, -, ht⟩ := h.array b henv
    rw [krealloc_some k hsize hb]
    dsimp only
    by_cases hle : n * sizeofEnvironInfo ≤ room
    · rw [if_pos hle]
      refine ⟨some b, _, rfl, fun x hx _ => ?_, .inr ⟨b, rfl, rfl, ⟨_, e, ?_, le_rfl, hn, ht⟩,
        .inl rfl⟩⟩
      · rw [Memory.block_shrink hb hle, if_neg fun e => hx (by rw [e])]
      · rw [Memory.block_shrink hb hle, if_pos rfl]
    · rw [if_neg hle]
      rcases kmalloc_cases k m (n * sizeofEnvironInfo)
        (moved k.litterInfo ⟨room, .environ e⟩) with hk | ⟨a, hf, hk⟩
      · refine ⟨none, m.refuse.free b, ?_, fun x _ hx => ?_, .inl ⟨rfl, rfl⟩⟩
        · rw [hk, ok_bind]
          change kfree m.refuse b >>= _ = _
          rw [kfree_eq (by simp [hb]), ok_bind]
        · rw [Memory.block_free, if_neg fun e => hx (by rw [e])]
          rfl
      · have hab : b ≠ a := fun e => by simp [e, hf.fresh] at hb
        have hbm : (m.alloc hf (moved k.litterInfo ⟨room, .environ e⟩)).block b ≠ none := by
          simp [Memory.block_alloc, hab, hb]
        refine ⟨some a, (m.alloc hf (moved k.litterInfo ⟨room, .environ e⟩)).free b, ?_,
          fun x hx hxb => ?_, .inr ⟨a, rfl, ?_, ?_, .inr hf.fresh⟩⟩
        · rw [hk, ok_bind]
          change kfree (m.alloc hf _) b >>= _ = _
          rw [kfree_eq hbm, ok_bind]
        · rw [Memory.block_free, Memory.block_alloc, if_neg fun e => hxb (by rw [e]),
            if_neg fun e => hx (by rw [e])]
        · rw [Memory.refused_free, Memory.refused_alloc]
        · refine ⟨_, movedEntries e k.litterInfo room, ?_, le_rfl, hn, ?_⟩
          · rw [Memory.block_free, Memory.block_alloc, if_neg hab.symm, if_pos rfl]
            rfl
          · conv_rhs => rw [← ht]
            refine taken_congr fun i hi => if_pos ?_
            exact (Nat.mul_le_mul_right _ hi).trans hr

/-- A variable gets new data: one block comes, one goes and the array names the new one. -/
theorem Represents.replace {m m' : Memory} {proc : Process} {l₁ l₂ : List EnvironInfo}
    {e : EnvironInfo} (e' : EnvironInfo) {room : ℕ} {d : Buffer}
    (h : Represents m proc (l₁ ++ e :: l₂))
    (hfresh : m.block e'.data = none) (hnew : m'.block e'.data = some ⟨room, .bytes d⟩)
    (hs : 0 < e'.size) (hroom : e'.size ≤ room)
    (harr : ∀ a, proc.environment = some a →
      ArrayAt m' a (l₁ ++ e' :: l₂).length (l₁ ++ e' :: l₂))
    (hother : ∀ x, x ≠ e'.data → proc.environment ≠ some x → x ≠ e.data →
      m'.block x = m.block x) (hr : m'.refused = m.refused) :
    Represents m' proc (l₁ ++ e' :: l₂) ∧
      Frame m m' (owned proc (l₁ ++ e :: l₂)) (owned proc (l₁ ++ e' :: l₂)) ∧
      (l₁ ++ e' :: l₂).map (view m') =
        l₁.map (view m) ++ (key e'.name, taken d e'.size) :: l₂.map (view m) := by
  have hn := h.distinct
  simp only [List.map_append, List.map_cons, List.nodup_append, List.nodup_cons,
    List.mem_map] at hn
  have hold : ∀ x ∈ l₁ ++ l₂, x.data ≠ e'.data ∧ m'.block x.data = m.block x.data := by
    intro x hx
    have hx' : x ∈ l₁ ++ e :: l₂ := by
      rcases List.mem_append.mp hx with h' | h' <;> simp [h']
    obtain ⟨rx, dx, hdx, -, -⟩ := h.data x hx'
    have hne : x.data ≠ e'.data := fun he => by simp [he, hfresh] at hdx
    refine ⟨hne, hother _ hne (fun ha => ?_) fun he => ?_⟩
    · obtain ⟨ra, env, hb, -⟩ := h.array _ ha
      simp [hb] at hdx
    · rcases List.mem_append.mp hx with h' | h'
      · exact hn.2.2 _ ⟨x, h', rfl⟩ _ (by simp) he
      · exact hn.2.1.1 ⟨x, h', he⟩
  have hmem : ∀ x ∈ l₁ ++ e' :: l₂, x = e' ∨ x ∈ l₁ ++ l₂ := by
    intro x hx
    simp only [List.mem_append, List.mem_cons] at hx ⊢
    tauto
  refine ⟨⟨?_, harr, fun ha => ?_, fun x hx => ?_, ?_⟩, ⟨fun x hx hxo => ?_, fun x hx hxo => ?_,
    fun hm => hr ▸ hm⟩, ?_⟩
  · simpa using h.count
  · simpa using h.empty ha
  · rcases hmem x hx with rfl | hx
    · exact ⟨room, d, hnew, hs, hroom⟩
    · exact (h.data x (by
        rcases List.mem_append.mp hx with h' | h' <;> simp [h'])).congr (hold x hx).2
  · simp only [List.map_append, List.map_cons, List.nodup_append, List.nodup_cons, List.mem_map]
    refine ⟨hn.1, ⟨?_, hn.2.1.2⟩, ?_⟩
    · rintro ⟨x, hx, he⟩
      exact (hold x (List.mem_append_right _ hx)).1 he
    · rintro y ⟨x, hx, rfl⟩ z hz
      rcases List.mem_cons.mp hz with rfl | hz
      · exact (hold x (List.mem_append_left _ hx)).1
      · exact hn.2.2 _ ⟨x, hx, rfl⟩ z (List.mem_cons_of_mem _ hz)
  · simp only [owned, List.mem_append, Option.mem_toList, List.map_append, List.map_cons,
      List.mem_cons, not_or] at hxo
    exact hother x (fun he => hx (he ▸ hfresh)) hxo.1 hxo.2.2.1
  · have hne : x ≠ e'.data := fun he => hx (he ▸ hfresh)
    simp only [owned, List.mem_append, Option.mem_toList, List.map_append, List.map_cons,
      List.mem_cons, not_or] at hxo ⊢
    exact ⟨hxo.1, hxo.2.1, hne, hxo.2.2.2⟩
  · rw [List.map_append, List.map_cons, view_eq hnew]
    congr 1
    · exact List.map_congr_left fun x hx => view_congr (hold x (List.mem_append_left _ hx)).2
    · congr 1
      exact List.map_congr_left fun x hx => view_congr (hold x (List.mem_append_right _ hx)).2

/-- The three writes of `set_environment` for a name that is there already. -/
theorem overwrite_eq (k : Kalloc) {m : Memory} {proc : Process} {l₁ l₂ : List EnvironInfo}
    {e : EnvironInfo} (e' : EnvironInfo) (h : Represents m proc (l₁ ++ e :: l₂)) (data : Buffer)
    {room : ℕ} (hf : m.Fits e'.data room) (hroom : e'.size ≤ room) :
    ∃ m₁ m₂ m', kfree (m.alloc hf (.bytes k.litter)) e.data = .ok m₁ ∧
      setEntry m₁ proc.environment l₁.length e' = .ok m₂ ∧
      copyInto m₂ e'.data data e'.size = .ok m' ∧ m'.refused = m.refused ∧
      m'.block e'.data = some ⟨room, .bytes (kmemcpy k.litter data e'.size)⟩ ∧
      (∀ a, proc.environment = some a →
        ArrayAt m' a (l₁ ++ e' :: l₂).length (l₁ ++ e' :: l₂)) ∧
      ∀ x, x ≠ e'.data → proc.environment ≠ some x → x ≠ e.data → m'.block x = m.block x := by
  obtain ⟨a, ra, env, ha, hb, hr, ht⟩ := h.array_of_lt (by simp : l₁.length < _)
  obtain ⟨re, d, hd, -, -⟩ := h.data e (by simp)
  have hap : a ≠ e'.data := fun he => by simp [he, hf.fresh] at hb
  have hae : a ≠ e.data := fun he => by simp [he, hd] at hb
  have hpe : e'.data ≠ e.data := fun he => by simp [← he, hf.fresh] at hd
  have hlen : (l₁.length + 1) * sizeofEnvironInfo ≤ ra := by
    refine (Nat.mul_le_mul_right _ ?_).trans hr
    simp
  have h₁ : ∀ x, ((m.alloc hf (.bytes k.litter)).free e.data).block x =
      if x = e.data then none
      else if x = e'.data then some ⟨room, .bytes k.litter⟩ else m.block x :=
    fun x => by rw [Memory.block_free, Memory.block_alloc]
  have ha₁ : ((m.alloc hf (.bytes k.litter)).free e.data).block a = some ⟨ra, .environ env⟩ := by
    rw [h₁, if_neg hae, if_neg hap, hb]
  have hp₂ := Memory.block_write ha₁ (.environ (Function.update env l₁.length e')) e'.data
  rw [if_neg hap.symm, h₁, if_neg hpe, if_pos rfl] at hp₂
  refine ⟨_, _, _, kfree_eq (by simp [Memory.block_alloc, hpe.symm, hd]),
    ha ▸ setEntry_eq ha₁ hlen e', copyInto_eq hp₂ hroom data, rfl, ?_, fun b hb' => ?_,
    fun x hx hxa hxe => ?_⟩
  · rw [Memory.block_write hp₂, if_pos rfl]
  · obtain rfl : b = a := Option.some.inj (hb'.symm.trans ha)
    refine ⟨ra, Function.update env l₁.length e', ?_, by simpa using hr, le_rfl, ?_⟩
    · rw [Memory.block_write hp₂, if_neg hap, Memory.block_write ha₁, if_pos rfl]
    · have hlen' : (l₁ ++ e' :: l₂).length = (l₁ ++ e :: l₂).length := by simp
      rw [hlen', taken_set, ht]
      simp
  · rw [Memory.block_write hp₂, if_neg hx, Memory.block_write ha₁,
      if_neg fun he => hxa (by rw [ha, he]), h₁, if_neg hxe, if_neg hx]

theorem exists_split {α : Type*} {l : List α} {i : ℕ} (h : i < l.length) :
    ∃ l₁ l₂, l = l₁ ++ l[i] :: l₂ ∧ l₁.length = i :=
  ⟨l.take i, l.drop (i + 1), by simp, by simp [h.le]⟩

/-- The entry found by name is the variable found by its key. -/
theorem findIdx_views (m : Memory) (es : List EnvironInfo) (name : CString) :
    (es.map (view m)).findIdx (fun v => v.1 = key name) = es.findIdx (named name) := by
  rw [List.findIdx_map]
  congr 1
  funext e
  exact decide_eq_decide.mpr kstrncmp_eq_zero.symm

/-- What a call of `set_environment` may end in. -/
structure Sets (m : Memory) (proc : Process) (es : List EnvironInfo) (name : CString)
    (data : List UInt8) (rc : ℤ) (m' : Memory) (proc' : Process) (es' : List EnvironInfo) :
    Prop where
  represents : Represents m' proc' es'
  frame : Frame m m' (owned proc es) (owned proc' es')
  result : rc = SMK_NOMEM ∧ m'.refused = true ∨ rc = SMK_OK ∧ m'.refused = m.refused ∧
    es'.map (view m') = OrderedMap.put (key name) data (es.map (view m))

theorem setEnvironment_present (k : Kalloc) {m : Memory} {proc : Process}
    {es : List EnvironInfo} (h : Represents m proc es) (name : CString) (data : Buffer) {size : ℕ}
    (hs : 0 < size) (hi : es.findIdx (named name) < es.length) :
    ∃ rc proc' m' es', setEnvironment k m proc (some name) (some data) size =
        .ok (rc, proc', m') ∧ Sets m proc es name (taken data size) rc m' proc' es' := by
  have hput := OrderedMap.put_eq (key name) (taken data size) (es.map (view m))
  rw [findIdx_views, List.length_map, if_pos hi] at hput
  simp only [setEnvironment, setEnvironmentWith, if_neg hs.ne']
  rw [h.findFrom_eq, ok_bind, h.count, if_pos hi, h.entry_eq hi, ok_bind]
  rcases kmalloc_cases k m size (.bytes k.litter) with hk | ⟨p, hf, hk⟩
  · rw [hk, ok_bind]
    exact ⟨_, proc, m.refuse, es, rfl,
      h.congr fun _ _ => rfl, ⟨fun _ _ _ => rfl, fun _ _ hx => hx, fun _ => rfl⟩, .inl ⟨rfl, rfl⟩⟩
  · obtain ⟨l₁, l₂, hes, hl⟩ := exists_split hi
    have hname : key es[es.findIdx (named name)].name = key name := by
      have hn := List.findIdx_getElem (w := hi)
      exact kstrncmp_eq_zero.mp (by simpa [named] using hn)
    generalize es[es.findIdx (named name)] = e at hes hname ⊢
    rw [← hl] at hput ⊢
    clear hl hi
    subst hes
    obtain ⟨m₁, m₂, m', h₁, h₂, h₃, hr, hnew, harr, hother⟩ :=
      overwrite_eq k { e with data := p, size := size } h data hf le_rfl
    obtain ⟨hR, hF, hv⟩ := Represents.replace { e with data := p, size := size } h
      hf.fresh hnew hs le_rfl harr hother hr
    refine ⟨SMK_OK, proc, m', _, ?_, hR, hF, .inr ⟨rfl, hr, ?_⟩⟩
    · rw [hk, ok_bind]
      dsimp only
      rw [h₁, ok_bind, h₂, ok_bind, h₃, ok_bind]
    · have hl : l₁.length = (l₁.map (view m)).length := (List.length_map _).symm
      rw [hv, hput, taken_kmemcpy, List.map_append, List.map_cons, hl, hname]
      simp

/-- A variable is added at the end of the array. -/
theorem Represents.append {m m' : Memory} {proc : Process} {es : List EnvironInfo}
    (e' : EnvironInfo) {a room : ℕ} {d : Buffer} (h : Represents m proc es)
    (hfresh : m.block e'.data = none) (hnew : m'.block e'.data = some ⟨room, .bytes d⟩)
    (hs : 0 < e'.size) (hroom : e'.size ≤ room)
    (harr : ArrayAt m' a (es ++ [e']).length (es ++ [e']))
    (ha : proc.environment = some a ∨ m.block a = none)
    (hother : ∀ x, x ≠ e'.data → x ≠ a → proc.environment ≠ some x → m'.block x = m.block x)
    (hr : m'.refused = m.refused) :
    Represents m' ⟨some a, es.length + 1⟩ (es ++ [e']) ∧
      Frame m m' (owned proc es) (owned ⟨some a, es.length + 1⟩ (es ++ [e'])) ∧
      (es ++ [e']).map (view m') = es.map (view m) ++ [(key e'.name, taken d e'.size)] := by
  have hold : ∀ x ∈ es, x.data ≠ e'.data ∧ m'.block x.data = m.block x.data := by
    intro x hx
    obtain ⟨rx, dx, hdx, -, -⟩ := h.data x hx
    have hne : x.data ≠ e'.data := fun he => by simp [he, hfresh] at hdx
    have hna : proc.environment ≠ some x.data := fun he => by
      obtain ⟨ra, env, hb, -⟩ := h.array _ he
      simp [hb] at hdx
    refine ⟨hne, hother _ hne (fun he => ?_) hna⟩
    rcases ha with ha | ha
    · exact hna (he ▸ ha)
    · simp [he, ha] at hdx
  have hdata : ∀ x ∈ es ++ [e'], DataAt m' x := by
    intro x hx
    rcases List.mem_append.mp hx with hx | hx
    · exact (h.data x hx).congr (hold x hx).2
    · obtain rfl := List.mem_singleton.mp hx
      exact ⟨room, d, hnew, hs, hroom⟩
  have hnodup : ((es ++ [e']).map EnvironInfo.data).Nodup := by
    rw [List.map_append, List.nodup_append]
    refine ⟨h.distinct, List.nodup_singleton _, fun y hy z hz => ?_⟩
    obtain ⟨x, hx, rfl⟩ := List.mem_map.mp hy
    rw [List.mem_singleton.mp hz]
    exact (hold x hx).1
  have hlen : (es ++ [e']).length = es.length + 1 := by simp
  refine ⟨hlen ▸ of_array harr hdata hnodup, ⟨fun x hx hxo => ?_, fun x hx hxo => ?_,
    fun hm => hr ▸ hm⟩, ?_⟩
  · have hxa : x ≠ a := fun he => ha.elim (fun ha => hxo (by simp [owned, ha, he]))
      fun ha => hx (he ▸ ha)
    exact hother x (fun he => hx (he ▸ hfresh)) hxa fun he => hxo (by simp [owned, he])
  · have hxa : x ≠ a := fun he => ha.elim (fun ha => hxo (by simp [owned, ha, he]))
      fun ha => hx (he ▸ ha)
    have hxe : x ≠ e'.data := fun he => hx (he ▸ hfresh)
    simp only [owned, List.mem_append, List.map_append, not_or] at hxo ⊢
    exact ⟨by simpa using hxa, hxo.2, by simpa using hxe⟩
  · rw [List.map_append, List.map_singleton, view_eq hnew]
    congr 1
    exact List.map_congr_left fun x hx => view_congr (hold x hx).2

/-- The writes of `set_environment` for a new name: the data, then the entry. -/
theorem append_eq {m : Memory} {p a room ra n size : ℕ} {d : Buffer} {env : ℕ → EnvironInfo}
    (hp : m.block p = some ⟨room, .bytes d⟩) (hb : m.block a = some ⟨ra, .environ env⟩)
    (hra : (n + 1) * sizeofEnvironInfo ≤ ra) (src : Buffer) (hroom : size ≤ room)
    (e : EnvironInfo) :
    ∃ m₁ m₂, copyInto m p src size = .ok m₁ ∧ entry m₁ (some a) n = .ok (env n) ∧
      setEntry m₁ (some a) n e = .ok m₂ ∧ m₂.refused = m.refused ∧
      m₂.block p = some ⟨room, .bytes (kmemcpy d src size)⟩ ∧
      m₂.block a = some ⟨ra, .environ (Function.update env n e)⟩ ∧
      ∀ x, x ≠ p → x ≠ a → m₂.block x = m.block x := by
  have hap : a ≠ p := fun he => by simp [he, hp] at hb
  have hb₁ : (m.write p (.bytes (kmemcpy d src size))).block a = some ⟨ra, .environ env⟩ := by
    rw [Memory.block_write hp, if_neg hap, hb]
  refine ⟨_, _, copyInto_eq hp hroom src, entry_eq hb₁ hra, setEntry_eq hb₁ hra e, rfl, ?_, ?_,
    fun x hxp hxa => ?_⟩
  · rw [Memory.block_write hb₁, if_neg hap.symm, Memory.block_write hp, if_pos rfl]
  · rw [Memory.block_write hb₁, if_pos rfl]
  · rw [Memory.block_write hb₁, if_neg hxa, Memory.block_write hp, if_neg hxp]

theorem setEnvironment_absent (k : Kalloc) {m : Memory} {proc : Process}
    {es : List EnvironInfo} (h : Represents m proc es) (name : CString) (data : Buffer) {size : ℕ}
    (hs : 0 < size) (hi : ¬ es.findIdx (named name) < es.length) :
    ∃ rc proc' m' es', setEnvironment k m proc (some name) (some data) size =
        .ok (rc, proc', m') ∧ Sets m proc es name (taken data size) rc m' proc' es' := by
  have hput := OrderedMap.put_eq (key name) (taken data size) (es.map (view m))
  rw [findIdx_views, List.length_map, if_neg hi] at hput
  simp only [setEnvironment, setEnvironmentWith, if_neg hs.ne']
  rw [h.findFrom_eq, ok_bind, h.count, if_neg hi]
  rcases kmalloc_cases k m size (.bytes k.litter) with hk | ⟨p, hf, hk⟩
  · rw [hk, ok_bind]
    exact ⟨_, proc, m.refuse, es, rfl,
      h.congr fun _ _ => rfl, ⟨fun _ _ _ => rfl, fun _ _ hx => hx, fun _ => rfl⟩, .inl ⟨rfl, rfl⟩⟩
  · have h₁ : Represents (m.alloc hf (.bytes k.litter)) proc es := h.congr fun x hx => by
      have hxp : x ≠ p := fun he => h.allocated hx (he ▸ hf.fresh)
      rw [Memory.block_alloc, if_neg hxp]
    obtain ⟨q, m₂, hq, hother, hcase⟩ := krealloc_grow k h₁ (Nat.le_succ es.length) (Nat.succ_pos _)
    have hp : proc.environment ≠ some p := fun he =>
      h.allocated (x := p) (by simp [owned, he]) hf.fresh
    rw [hk, ok_bind]
    dsimp only
    rw [h.arrayBytes_eq le_rfl, hq, ok_bind]
    dsimp only
    rcases hcase with ⟨rfl, hr⟩ | ⟨a, rfl, hr, harr, ha⟩
    · have hp₂ : m₂.block p ≠ none := by
        rw [hother p (by simp) hp, Memory.block_alloc, if_pos rfl]
        simp
      rw [if_pos rfl, kfree_eq hp₂, ok_bind]
      refine ⟨_, _, _, [], rfl, .nil _, ⟨fun x hx hxo => ?_, fun _ _ _ => by simp [owned],
        fun _ => hr⟩, .inl ⟨rfl, hr⟩⟩
      have hxp : x ≠ p := fun he => hx (he ▸ hf.fresh)
      rw [Memory.block_free, if_neg hxp, hother x (by simp)
        fun he => hxo (by simp [owned, he]), Memory.block_alloc, if_neg hxp]
    · have hap : a ≠ p := by
        rintro rfl
        rcases ha with ha | ha
        · exact hp ha
        · simp [Memory.block_alloc] at ha
      obtain ⟨ra, env, hb, hra, -, ht⟩ := harr
      have hp₂ : m₂.block p = some ⟨size, .bytes k.litter⟩ := by
        rw [hother p (by simpa using hap) hp, Memory.block_alloc, if_pos rfl]
      obtain ⟨m₃, m₄, h₃, he, h₄, hr₄, hnew, harr, hother₄⟩ := append_eq hp₂ hb hra data le_rfl
        ⟨kstrncpy (env es.length).name name SMK_ENVNAME_LENGTH, size, p⟩
      obtain ⟨hR, hF, hv⟩ := h.append
        ⟨kstrncpy (env es.length).name name SMK_ENVNAME_LENGTH, size, p⟩ hf.fresh hnew hs le_rfl
        ⟨ra, _, harr, by simpa using hra, le_rfl, by
          rw [List.length_append, List.length_singleton, taken_push, ht]⟩
        (ha.imp_right fun ha => by rwa [Memory.block_alloc, if_neg hap] at ha)
        (fun x hxp hxa hxo => by
          rw [hother₄ x hxp hxa, hother x (by simpa using hxa.symm) hxo, Memory.block_alloc,
            if_neg hxp])
        (hr₄.trans hr)
      refine ⟨SMK_OK, _, m₄, _, ?_, hR, hF, .inr ⟨rfl, hr₄.trans hr, ?_⟩⟩
      · rw [if_neg (by simp), h₃, ok_bind, he, ok_bind, h₄, ok_bind]
      · rw [hv, hput, taken_kmemcpy]
        simp only [key, cut_kstrncpy]

theorem setEnvironment_spec (k : Kalloc) {m : Memory} {proc : Process} {es : List EnvironInfo}
    (h : Represents m proc es) (name : CString) (data : Buffer) {size : ℕ} (hs : 0 < size) :
    ∃ rc proc' m' es', setEnvironment k m proc (some name) (some data) size =
        .ok (rc, proc', m') ∧ Sets m proc es name (taken data size) rc m' proc' es' := by
  by_cases hi : es.findIdx (named name) < es.length
  · exact setEnvironment_present k h name data hs hi
  · exact setEnvironment_absent k h name data hs hi

end Racoon.Env
