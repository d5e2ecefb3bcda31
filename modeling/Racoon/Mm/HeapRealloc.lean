import Racoon.Mm.HeapBlocks

/-!
# A block gets another size

`la_realloc` records a smaller size in place and moves the data to a new block
for a larger one. It does not look whether it has got the new block: without one
it copies to `NULL`, and where there is nothing to copy it gives the old block
back.
-/

namespace Racoon.Liballoc
open Lib

theorem copyBy_eq (width k : ℕ) : ∀ (memory : Bytes) (s₁ s₂ : ℕ),
    Clear s₁ (width * k) s₂ (width * k) →
    (∀ i < width * k, copyBy width k memory s₁ s₂ (s₁ + i) = memory (s₂ + i)) ∧
      ∀ b, b < s₁ ∨ s₁ + width * k ≤ b → copyBy width k memory s₁ s₂ b = memory b := by
  induction k with
  | zero =>
    intro memory s₁ s₂ _
    exact ⟨fun i hi => absurd hi (Nat.not_lt_zero i), fun b _ => rfl⟩
  | succ k ih =>
    intro memory s₁ s₂ hclear
    rw [Nat.mul_succ] at hclear ⊢
    have hrest : Clear (s₁ + width) (width * k) (s₂ + width) (width * k) := by
      unfold Clear at hclear ⊢
      omega
    obtain ⟨hcopied, hkept⟩ := ih (memory.write width s₁ (memory.read width s₂)) _ _ hrest
    unfold Clear at hclear
    refine ⟨fun i hi => ?_, fun b hb => ?_⟩
    · rw [copyBy]
      by_cases hlt : i < width
      · rw [hkept _ (by omega)]
        exact Bytes.write_read_apply memory memory s₁ s₂ hlt
      · obtain ⟨j, rfl⟩ := Nat.exists_eq_add_of_le (not_lt.mp hlt)
        rw [← Nat.add_assoc, hcopied j (by omega), Bytes.write_apart _ (by omega), Nat.add_assoc]
    · rw [copyBy, hkept b (by omega), Bytes.write_apart _ (by omega)]

theorem liballocMemcpy_eq (memory : Bytes) {s₁ s₂ n : ℕ} (h₁ : 0 < s₁) (h₂ : 0 < s₂)
    (hclear : Clear s₁ n s₂ n) :
    ∃ m', liballocMemcpy memory s₁ s₂ n = .ok m' ∧ (∀ i < n, m' (s₁ + i) = memory (s₂ + i)) ∧
      ∀ b, b < s₁ ∨ s₁ + n ≤ b → m' b = memory b := by
  have hn := Nat.div_add_mod n 4
  unfold Clear at hclear
  obtain ⟨hwords, hkept⟩ := copyBy_eq 4 (n / 4) memory s₁ s₂ (by unfold Clear; omega)
  obtain ⟨hbytes, hkept'⟩ := copyBy_eq 1 (n % 4) (copyBy 4 (n / 4) memory s₁ s₂)
    (s₁ + 4 * (n / 4)) (s₂ + 4 * (n / 4)) (by unfold Clear; omega)
  refine ⟨_, if_neg (by omega), fun i hi => ?_, fun b hb => ?_⟩
  · by_cases hlt : i < 4 * (n / 4)
    · rw [hkept' _ (by omega), hwords i hlt]
    · obtain ⟨j, rfl⟩ := Nat.exists_eq_add_of_le (not_lt.mp hlt)
      rw [← Nat.add_assoc, hbytes j (by omega), hkept _ (by omega), Nat.add_assoc]
  · rw [hkept' b (by omega), hkept b (by omega)]

section Resize
variable {h : Heap} {a n size : ℕ} {l r : List Cell} {c : Cell}

/-- A smaller size is recorded for a minor. -/
theorem Stored.resize (hs : Stored h.memory ⟨a, n, l ++ c :: r⟩) (hle : size ≤ c.reqSize) :
    ∃ m', h.modifyMinor c.addr (fun m => { m with reqSize := size }) = { h with memory := m' } ∧
      Stored m' ⟨a, n, l ++ { c with reqSize := size } :: r⟩ ∧ Edits h.memory m' a n ∧
      ∀ b, b < c.addr ∨ c.addr + 24 ≤ b → m' b = h.memory b := by
  have ho : MajorBlock.InOrder ⟨a, n, l ++ c :: r⟩ := hs.inOrder
  have hmem : c ∈ (⟨a, n, l ++ c :: r⟩ : MajorBlock).minors := by simp
  have hsize : ∀ d ∈ (⟨a, n, l ++ c :: r⟩ : MajorBlock).minors, 6 ≤ d.size := fun d hd => by
    have := (hs.holds d hd).fits
    simp only [ALIGNMENT, ALIGN_INFO] at this
    omega
  have hh := hs.holds c hmem
  have hold := minorLayout.fits_get h.memory c.addr
  rw [fits_minor] at hold
  obtain ⟨m', he, hv, hfar⟩ : ∃ m',
      h.modifyMinor c.addr (fun m => { m with reqSize := size }) = { h with memory := m' } ∧
      Views h.memory m' ⟨a, n, l ++ c :: r⟩ (majorLayout.get h.memory a)
        (Function.update (minorLayout.get h.memory) c.addr
          { minorLayout.get h.memory c.addr with reqSize := size })
        (fun d => h.memory.read 2 (d.ptr - ALIGN_INFO)) ∧
      ∀ b, b < c.addr ∨ c.addr + 24 ≤ b → m' b = h.memory b := by
    refine ⟨_, rfl, (Views.start h.memory ⟨a, n, l ++ c :: r⟩).putMinor ho hsize hmem ?_,
      fun b hb => minorLayout.put_apart _ _ hb⟩
    rw [fits_minor]
    have := hh.reqSize
    exact ⟨hold.1, hold.2.1, hold.2.2.1, hold.2.2.2.1, hold.2.2.2.2.1, by dsimp only; omega⟩
  refine ⟨m', he, ?_, ⟨congrArg Major.prev hv.major, congrArg Major.next hv.major, hv.outside⟩,
    hfar⟩
  have haddr : (l ++ { c with reqSize := size } :: r).map Cell.addr =
      (l ++ c :: r).map Cell.addr := by simp
  have hlen : (l ++ { c with reqSize := size } :: r).map Cell.len =
      (l ++ c :: r).map Cell.len := by simp [Cell.len]
  have hpack : MajorBlock.InOrder ⟨a, n, l ++ { c with reqSize := size } :: r⟩ := by
    obtain ⟨hl, hr⟩ := packed_mid.mp (show Packed _ _ _ (l ++ c :: r) _ from ho)
    exact packed_mid.mpr ⟨hl, hr⟩
  have hlinks : ∀ d ∈ l ++ c :: r, nextMinor m' d.addr = nextMinor h.memory d.addr ∧
      prevMinor m' d.addr = prevMinor h.memory d.addr := fun d hd => by
    rw [nextMinor, prevMinor, hv.minor d hd, nextMinor, prevMinor]
    by_cases hdc : d.addr = c.addr
    · rw [hdc, Function.update_self]
      exact ⟨rfl, rfl⟩
    · rw [Function.update_of_ne hdc]
      exact ⟨rfl, rfl⟩
  have hsame : majorLayout.get m' a = majorLayout.get h.memory a := hv.major
  refine ⟨hsame ▸ hs.size, hsame ▸ hs.pages, ?_, ?_, ?_, hpack, fun d hd => ?_⟩
  · have husage : MajorBlock.usage ⟨a, n, l ++ { c with reqSize := size } :: r⟩ =
        MajorBlock.usage ⟨a, n, l ++ c :: r⟩ := congrArg (sizeofMajor + List.sum ·) hlen
    exact husage ▸ hsame ▸ hs.usage
  · dsimp only
    rw [haddr]
    exact hsame ▸ hs.first
  · dsimp only
    rw [haddr]
    refine hs.chain.congr (fun x hx => ?_) fun x hx => ?_
    · obtain ⟨d, hd, rfl⟩ := List.mem_map.mp hx
      exact (hlinks d hd).1
    · obtain ⟨d, hd, rfl⟩ := List.mem_map.mp hx
      exact (hlinks d hd).2
  · have hnodup := ho.nodup
    dsimp only at hnodup
    rw [List.map_append, List.map_cons, List.nodup_middle, List.nodup_cons,
      ← List.map_append] at hnodup
    have hd' : d = { c with reqSize := size } ∨ d ∈ l ++ r := by
      simp only [List.mem_append, List.mem_cons] at hd ⊢
      tauto
    rcases hd' with rfl | hd'
    · have hget := hv.minor c hmem
      rw [Function.update_self] at hget
      have hfits := hh.fits
      refine ⟨?_, ?_, ?_, ?_, by dsimp only; omega, (hv.tag c hmem).trans hh.tag⟩ <;>
        dsimp only <;> rw [hget]
      exacts [hh.block, hh.magic, hh.size]
    · have hne : d.addr ≠ c.addr := fun hdc => hnodup.1 (hdc ▸ List.mem_map_of_mem hd')
      have hd : d ∈ l ++ c :: r := by
        simp only [List.mem_append, List.mem_cons] at hd' ⊢
        tauto
      have hhd := hs.holds d hd
      have hget := hv.minor d hd
      rw [Function.update_of_ne hne] at hget
      refine ⟨?_, ?_, ?_, ?_, hhd.fits, (hv.tag d hd).trans hhd.tag⟩ <;> rw [hget]
      exacts [hhd.block, hhd.magic, hhd.size, hhd.reqSize]

end Resize

/-- `q` has at least `size` bytes of its own with the data of the block `c`, which is not live any
more unless it is `q`. -/
structure Moved (h h' : Heap) (c : Cell) (size q : ℕ) : Prop where
  live : ∃ G' d, Represents h' G' ∧ d ∈ cells G' ∧ d.ptr = q ∧ size ≤ d.usable
  data : ∀ i < min c.reqSize size, h'.memory (q + i) = h.memory (c.ptr + i)
  gone : q ≠ c.ptr → ∀ G', Represents h' G' → ∀ d ∈ cells G', d.ptr ≠ c.ptr

/-- The block `c` is still live with its data, and only headers were written. -/
def Kept (h h' : Heap) (G : List MajorBlock) (c : Cell) : Prop :=
  ∃ G', Represents h' G' ∧ (∃ d ∈ cells G', d.ptr = c.ptr ∧ d.reqSize = c.reqSize) ∧
    (∀ i < c.reqSize, h'.memory (c.ptr + i) = h.memory (c.ptr + i)) ∧
    ∀ b, (¬ ∃ B ∈ G ++ G', B.Header b) → h'.memory b = h.memory b

/-- `la_realloc` answers with a block that has the data, or keeps the old one. -/
def KeepsData (liballocAlloc : List Block → ℕ → Option ℕ) (h : Heap)
    (G : List MajorBlock) (c : Cell) (size : ℕ) : Prop :=
  ∃ h' q, laRealloc liballocAlloc h c.ptr size = .ok (h', q) ∧ (q ≠ 0 → Moved h h' c size q) ∧
    (q = 0 → Kept h h' G c)

/-- The size does not grow, or a block of that size can be had. -/
def Obtainable (liballocAlloc : List Block → ℕ → Option ℕ) (h : Heap) (G : List MajorBlock)
    (c : Cell) (size : ℕ) : Prop :=
  size ≤ c.reqSize ∨ size + 54 < 2 ^ 32 ∧ ((∃ B ∈ G, B.HasGap (size + 30)) ∨
    liballocAlloc h.pages (pagesFor (size + 6)) ≠ none)

namespace Represents
variable {liballocAlloc : List Block → ℕ → Option ℕ} {h h' : Heap} {G G' : List MajorBlock}
  {c d : Cell} {size : ℕ}

theorem resize (hr : Represents h G) (hc : c ∈ cells G) (hle : size ≤ c.reqSize) :
    ∃ m' G' cs, h.modifyMinor c.addr (fun m => { m with reqSize := size }) =
        { h with memory := m' } ∧ Represents { h with memory := m' } G' ∧
      (cells G).Perm (c :: cs) ∧ (cells G').Perm ({ c with reqSize := size } :: cs) ∧
      SameData h.memory m' (cells G) := by
  obtain ⟨B, hB, hcB⟩ := mem_cells.mp hc
  obtain ⟨G₁, G₂, rfl⟩ := List.append_of_mem hB
  obtain ⟨a, n, minors⟩ := B
  obtain ⟨l, r, rfl⟩ : ∃ l r, minors = l ++ c :: r := List.append_of_mem hcB
  obtain ⟨m', he, hstored, hedits, hfar⟩ := (hr.stored _ hB).resize hle
  have hinuse : (MajorBlock.inuse ⟨a, n, l ++ { c with reqSize := size } :: r⟩ : ℤ) =
      MajorBlock.inuse ⟨a, n, l ++ c :: r⟩ + 0 := by simp [MajorBlock.inuse]
  have hr' := hr.edit hstored hedits hinuse
  rw [add_zero] at hr'
  have hperm : ∀ c, (cells (G₁ ++ ⟨a, n, l ++ c :: r⟩ :: G₂)).Perm
      (c :: (cells G₁ ++ (l ++ r) ++ cells G₂)) := fun c => by
    have hcells : cells (G₁ ++ ⟨a, n, l ++ c :: r⟩ :: G₂) =
        cells G₁ ++ l ++ c :: (r ++ cells G₂) := by simp [cells]
    rw [hcells]
    simpa using @List.perm_middle _ c (cells G₁ ++ l) (r ++ cells G₂)
  refine ⟨m', _, _, he, hr', hperm c, hperm _, fun d hd b hb hlt => hfar b ?_⟩
  by_contra hin
  have hptr := c.ptr_bounds
  exact hr.not_header hd hb hlt ⟨_, hB, .inr ⟨c, by simp, by omega, by omega⟩⟩

/-- A block that has been given back is not live. -/
theorem not_live (hr : Represents h G) (hr' : Represents h' G')
    (hp : (cells G).Perm (c :: cells G'))
    {G'' : List MajorBlock} (hr'' : Represents h' G'') : ∀ d ∈ cells G'', d.ptr ≠ c.ptr := by
  rw [hr''.unique hr']
  intro d hd he
  have hc : c ∈ cells G := hp.mem_iff.mpr (by simp)
  have hdG : d ∈ cells G := hp.mem_iff.mpr (List.mem_cons_of_mem c hd)
  obtain rfl := hr.ptr_inj hdG hc he
  exact (List.nodup_cons.mp (hp.nodup hr.cells_nodup)).1 hd

theorem usable_lt (hr : Represents h G) (hc : c ∈ cells G) : c.usable + 4096 ≤ 2 ^ 32 := by
  obtain ⟨B, hB, hcB⟩ := mem_cells.mp hc
  have hb := (hr.stored B hB).inOrder.bounds hcB
  have hin := hr.inside hB
  have hpages := (hr.stored B hB).pages
  have hptr := c.ptr_bounds
  unfold Cell.usable Cell.len sizeofMinor
  rw [pageSize] at hpages
  omega

/-- What `la_realloc` does with a live block. -/
theorem laRealloc_live (hr : Represents h G) (hc : c ∈ cells G) (hs : 0 < size) :
    laRealloc liballocAlloc h c.ptr size =
      if size ≤ c.reqSize then
        .ok (h.modifyMinor c.addr fun m => { m with reqSize := size }, c.ptr)
      else
        laMalloc liballocAlloc h size >>= fun (h₁, ptr) =>
          liballocMemcpy h₁.memory ptr c.ptr c.reqSize >>= fun memory =>
            laFree { h₁ with memory := memory } c.ptr >>= fun h₂ => .ok (h₂, ptr) := by
  obtain ⟨hmin, hmagic, hreq⟩ := hr.min_eq hc
  unfold laRealloc
  rw [if_neg hs.ne', if_neg c.ptr_pos.ne']
  dsimp only
  rw [hmin, if_neg (not_not.mpr hmagic), hreq]

/-- The size is recorded in place. -/
theorem laRealloc_shrinks (liballocAlloc : List Block → ℕ → Option ℕ) (hr : Represents h G)
    (hc : c ∈ cells G) (hs : 0 < size) (hle : size ≤ c.reqSize) :
    ∃ h' G' cs, laRealloc liballocAlloc h c.ptr size = .ok (h', c.ptr) ∧ Represents h' G' ∧
      (cells G).Perm (c :: cs) ∧ (cells G').Perm ({ c with reqSize := size } :: cs) ∧
      SameData h.memory h'.memory (cells G) := by
  obtain ⟨m', G', cs, he, hr', hp, hp', hdata⟩ := hr.resize hc hle
  refine ⟨_, G', cs, ?_, hr', hp, hp', hdata⟩
  rw [hr.laRealloc_live hc hs, if_pos hle, he]

/-- A request is served, or `liballoc_alloc` had to be asked and has nothing. -/
theorem laMalloc_serves (hg : PageGrants liballocAlloc) (hr : Represents h G)
    (hsize : size + 54 < 2 ^ 32) :
    ∃ h₁ q, laMalloc liballocAlloc h size = .ok (h₁, q) ∧
      SameData h.memory h₁.memory (cells G) ∧
      (((∃ B ∈ G, B.HasGap (size + 30)) ∨ liballocAlloc h.pages (pagesFor (size + 6)) ≠ none) ∧
          (∃ G', Served h₁ G' (size + 6) size q ∧ cells G' = cells G) ∨
        ((¬ ∃ B ∈ G, B.HasGap (size + 30)) ∧ liballocAlloc h.pages (pagesFor (size + 6)) = none) ∧
          q = 0 ∧ Refused liballocAlloc h h₁ (size + 6) ∧ Represents h₁ G) := by
  obtain ⟨h₁, q, hfound, hdata, ⟨hgap, hserved, -⟩ |
      ⟨hno, ⟨hq, href, hr₁⟩ | ⟨N, h₂, hnew, hserved, -⟩⟩⟩ :=
    hr.mallocSize_serves hg (show size + 6 + 48 < 2 ^ 32 by omega)
      (show size + (ALIGNMENT + ALIGN_INFO) ≤ size + 6 from le_rfl)
  all_goals
    rw [← laMalloc_eq (by omega)] at hfound
    refine ⟨h₁, q, hfound, hdata, ?_⟩
  · exact .inl ⟨.inl hgap, G, hserved, rfl⟩
  · exact .inr ⟨⟨hno, href.answer⟩, hq, href, hr₁⟩
  · have hcells : cells (G ++ [N]) = cells G := by simp [cells, hnew.minors]
    exact .inl ⟨.inr (by simp [hnew.answer]), G ++ [N], hserved, hcells⟩

/-- The data goes to a new block, and the old block is given back. -/
theorem laRealloc_moves (hr : Represents h G) (hc : c ∈ cells G) (hgrow : c.reqSize < size)
    {h₁ : Heap} {q : ℕ} (hfound : laMalloc liballocAlloc h size = .ok (h₁, q))
    (hserved : Served h₁ G' (size + 6) size q) (hcells : cells G' = cells G)
    (hdata : SameData h.memory h₁.memory (cells G)) :
    ∃ h' G'' d cs, laRealloc liballocAlloc h c.ptr size = .ok (h', q) ∧ Represents h' G'' ∧
      (cells G).Perm (c :: cs) ∧ (cells G'').Perm (d :: cs) ∧ d.ptr = q ∧ d.reqSize = size ∧
      SameData h.memory h'.memory cs ∧ q ≠ c.ptr ∧
      ∀ i < c.reqSize, h'.memory (q + i) = h.memory (c.ptr + i) := by
  obtain ⟨G₁, d, hr₁, hp₁, hdsize, hdreq, rfl⟩ := hserved
  rw [hcells] at hp₁
  have hd₁ : d ∈ cells G₁ := hp₁.mem_iff.mpr (by simp)
  have hc₁ : c ∈ cells G₁ := hp₁.mem_iff.mpr (List.mem_cons_of_mem d hc)
  have hnodup := hp₁.nodup hr₁.cells_nodup
  have hne : d ≠ c := fun he => (List.nodup_cons.mp hnodup).1 (he ▸ hc)
  have hptr : d.ptr ≠ c.ptr := fun he => hne (hr₁.ptr_inj hd₁ hc₁ he)
  have : Std.Symm fun c d : Cell => Clear c.addr c.len d.addr d.len := ⟨fun _ _ => Clear.symm⟩
  have hclear := hr₁.cells_apart.forall hd₁ hc₁ hne
  have hduse := hr₁.reqSize_le hd₁
  have hcuse := hr₁.reqSize_le hc₁
  have hdptr := d.ptr_bounds
  have hcptr := c.ptr_bounds
  unfold Cell.usable at hduse hcuse
  unfold Clear at hclear
  have hapart : Clear d.ptr c.reqSize c.ptr c.reqSize := by
    unfold Clear
    omega
  obtain ⟨m', hcopy, hcopied, hkept⟩ := liballocMemcpy_eq h₁.memory d.ptr_pos c.ptr_pos hapart
  have hr₂ : Represents { h₁ with memory := m' } G₁ := hr₁.rewrite fun b hhead => hkept b (by
    by_contra hin
    exact hr₁.not_header hd₁ (by omega) (by omega) hhead)
  obtain ⟨h', G₂, hfree, hr', hp₂, hdata₂⟩ := hr₂.laFree_eq hc₁
  have hd₂ : d ∈ cells G₂ := (List.mem_cons.mp (hp₂.mem_iff.mp hd₁)).resolve_left hne
  obtain ⟨cs, hcs⟩ : ∃ cs, (cells G₂).Perm (d :: cs) := by
    obtain ⟨l, r, he⟩ := List.append_of_mem hd₂
    exact ⟨l ++ r, he ▸ List.perm_middle⟩
  have hp : (cells G).Perm (c :: cs) := by
    have hall : (d :: cells G).Perm (d :: c :: cs) :=
      hp₁.symm.trans (hp₂.trans ((hcs.cons c).trans (List.Perm.swap d c cs)))
    exact hall.cons_inv
  refine ⟨h', G₂, d, cs, ?_, hr', hp, hcs, rfl, hdreq, fun e he b hb hlt => ?_, hptr,
    fun i hi => ?_⟩
  · rw [hr.laRealloc_live hc (by omega), if_neg (by omega), hfound]
    change (liballocMemcpy h₁.memory d.ptr c.ptr c.reqSize >>= _) = _
    rw [hcopy]
    change (laFree { h₁ with memory := m' } c.ptr >>= _) = _
    rw [hfree]
    rfl
  · have he₂ : e ∈ cells G₂ := hcs.mem_iff.mpr (List.mem_cons_of_mem d he)
    have heG : e ∈ cells G := hp.mem_iff.mpr (List.mem_cons_of_mem c he)
    have he₁ : e ∈ cells G₁ := hp₁.mem_iff.mpr (List.mem_cons_of_mem d heG)
    have hde : d ≠ e := fun hde => (List.nodup_cons.mp hnodup).1 (hde ▸ heG)
    have hap := hr₁.cells_apart.forall hd₁ he₁ hde
    have heptr := e.ptr_bounds
    unfold Clear at hap
    rw [hdata₂ e he₂ b hb hlt]
    exact (hkept b (by omega)).trans (hdata e heG b hb hlt)
  · rw [hdata₂ d hd₂ _ (by omega) (by omega)]
    exact (hcopied i hi).trans (hdata c hc _ (by omega) (by omega))

/-- Without a new block there is nothing to copy to, and the old block goes. -/
theorem laRealloc_without (hr : Represents h G) (hc : c ∈ cells G) (hgrow : c.reqSize < size)
    {h₁ : Heap} (hfound : laMalloc liballocAlloc h size = .ok (h₁, 0)) :
    laRealloc liballocAlloc h c.ptr size =
      if c.reqSize = 0 then laFree h₁ c.ptr >>= fun h₂ => .ok (h₂, 0) else .error .badAccess := by
  rw [hr.laRealloc_live hc (by omega), if_neg (by omega), hfound]
  change (liballocMemcpy h₁.memory 0 c.ptr c.reqSize >>= _) = _
  unfold liballocMemcpy
  split_ifs with hcopy h0
  · exact absurd h0 hcopy.1
  · rfl
  · rw [‹c.reqSize = 0›]
    rfl
  · exact absurd ⟨‹_›, .inl rfl⟩ hcopy

theorem keepsData_of_obtainable (hg : PageGrants liballocAlloc) (hr : Represents h G)
    (hc : c ∈ cells G) (hs : 0 < size) (ho : Obtainable liballocAlloc h G c size) :
    KeepsData liballocAlloc h G c size := by
  by_cases hle : size ≤ c.reqSize
  · obtain ⟨h', G', cs, he, hr', -, hp, hdata⟩ := hr.laRealloc_shrinks liballocAlloc hc
      hs hle
    have huse := hr.reqSize_le hc
    have hptr := c.ptr_bounds
    refine ⟨h', c.ptr, he, fun _ => ⟨⟨G', { c with reqSize := size }, hr', hp.mem_iff.mpr (by simp),
      rfl, hle.trans huse⟩, fun i hi => hdata c hc _ (by omega) ?_, fun hne => absurd rfl hne⟩,
      fun h0 => absurd h0 c.ptr_pos.ne'⟩
    unfold Cell.usable at huse
    omega
  · obtain ⟨hsize, hroom⟩ := ho.resolve_left hle
    obtain ⟨h₁, q, hfound, hdata, ⟨-, G', hserved, hcells⟩ | ⟨hnone, -⟩⟩ :=
      hr.laMalloc_serves hg hsize
    · obtain ⟨h', G'', d, cs, he, hr', hp, hp', rfl, hdreq, -, hne, hcopied⟩ :=
        hr.laRealloc_moves hc (by omega) hfound hserved hcells hdata
      have hd : d ∈ cells G'' := hp'.mem_iff.mpr (by simp)
      refine ⟨h', d.ptr, he, fun _ => ⟨⟨G'', d, hr', hd, rfl, hdreq ▸ hr'.reqSize_le hd⟩,
        fun i hi => hcopied i (by omega), fun _ G₃ hr₃ e he hptr => ?_⟩,
        fun h0 => absurd h0 d.ptr_pos.ne'⟩
      rw [hr₃.unique hr'] at he
      rcases List.mem_cons.mp (hp'.mem_iff.mp he) with rfl | hecs
      · exact hne hptr
      · have heG : e ∈ cells G := hp.mem_iff.mpr (List.mem_cons_of_mem c hecs)
        obtain rfl := hr.ptr_inj heG hc hptr
        exact (List.nodup_cons.mp (hp.nodup hr.cells_nodup)).1 hecs
    · exact (hroom.elim hnone.1 fun hask => hask hnone.2).elim

theorem obtainable_of_keepsData (hg : PageGrants liballocAlloc) (hr : Represents h G)
    (hc : c ∈ cells G) (hdata : 0 < c.reqSize ∨ size + 54 < 2 ^ 32)
    (hk : KeepsData liballocAlloc h G c size) : Obtainable liballocAlloc h G c size := by
  by_contra hno
  obtain ⟨hgrow, hno⟩ := not_or.mp hno
  have hgrow : c.reqSize < size := not_le.mp hgrow
  obtain ⟨h', q, he, hmoved, hkept⟩ := hk
  by_cases hsize : size + 54 < 2 ^ 32
  · obtain ⟨h₁, q₁, hfound, -, ⟨hroom, -⟩ | ⟨-, rfl, -, hr₁⟩⟩ := hr.laMalloc_serves hg hsize
    · exact hno ⟨hsize, hroom⟩
    · rw [hr.laRealloc_without hc hgrow hfound] at he
      split_ifs at he
      obtain ⟨h₂, G', hfree, hr₂, hp, -⟩ := hr₁.laFree_eq hc
      rw [hfree] at he
      cases he
      obtain ⟨G'', hr'', ⟨d, hd, hptr, -⟩, -⟩ := hkept rfl
      exact hr₁.not_live hr₂ hp hr'' d hd hptr
  · have hpos : 0 < c.reqSize := hdata.resolve_right hsize
    rw [hr.laRealloc_live hc (by omega), if_neg (by omega)] at he
    obtain ⟨⟨h₁, q₁⟩, hfound, he⟩ := bind_eq_ok.mp he
    obtain ⟨m', hcopy, he⟩ := bind_eq_ok.mp he
    obtain ⟨h₂, hfree, he⟩ := bind_eq_ok.mp he
    cases he
    have hq : q ≠ 0 := fun h0 => by
      rw [liballocMemcpy, if_pos ⟨hpos.ne', .inl h0⟩] at hcopy
      cases hcopy
    obtain ⟨⟨G', d, hr', hd, -, huse⟩, -, -⟩ := hmoved hq
    have := hr'.usable_lt hd
    omega

end Represents

section Settled
variable {liballocAlloc : List Block → ℕ → Option ℕ} {h : Heap} {G : List MajorBlock} {c : Cell}
  {size : ℕ}

/-- `la_realloc` keeps the data of a live block where the size does not grow or a block of that size
can be had, and nowhere else. -/
theorem laRealloc_keeps_iff (hg : PageGrants liballocAlloc) (hr : Represents h G) (hc : c ∈ cells G)
    (hs : 0 < size) :
    (Obtainable liballocAlloc h G c size → KeepsData liballocAlloc h G c size) ∧
      (0 < c.reqSize ∨ size + 54 < 2 ^ 32 → KeepsData liballocAlloc h G c size →
        Obtainable liballocAlloc h G c size) :=
  ⟨hr.keepsData_of_obtainable hg hc hs, hr.obtainable_of_keepsData hg hc⟩

end Settled

/-- A major with one block of 100 bytes. -/
def oneBlock : Heap := (placeMinor oneMajor 4096 0 0 4120 106 100).1

theorem oneBlock_represents : Represents oneBlock [⟨4096, 65536, [⟨4120, 106, 100⟩]⟩] := by
  have hr := oneMajor_represents
  have hB : (⟨4096, 65536, []⟩ : MajorBlock) ∈ [⟨4096, 65536, []⟩] := by simp
  obtain ⟨m', hplace, hstored, hedits, -⟩ := Stored.placeMinor (l := []) (r := [])
    (c := ⟨4120, 106, 100⟩) (hr.stored _ hB) (by norm_num) (by norm_num)
    (packed_mid.mpr ⟨show 4096 + 24 ≤ 4120 by norm_num, show 4120 + (24 + 106) ≤ 4096 + 65536 by
      norm_num⟩) (by decide)
  have he : oneBlock = { oneMajor with memory := m', inuse := oneMajor.inuse + (106 : ℤ) } :=
    congrArg Prod.fst hplace
  rw [he]
  exact @Represents.edit oneMajor [] [] ⟨4096, 65536, []⟩ m' hr _ _ hstored hedits rfl

theorem noPages_grants : PageGrants fun _ _ => none := fun _ _ _ h => by cases h

theorem oneBlock_live : (⟨4120, 106, 100⟩ : Cell) ∈ cells [⟨4096, 65536, [⟨4120, 106, 100⟩]⟩] := by
  simp [cells]

theorem laRealloc_keeps_iff_oneBlock :
    KeepsData (fun _ _ => none) oneBlock [⟨4096, 65536, [⟨4120, 106, 100⟩]⟩] ⟨4120, 106, 100⟩ 40 ∧
      ¬ KeepsData (fun _ _ => none) oneBlock [⟨4096, 65536, [⟨4120, 106, 100⟩]⟩] ⟨4120, 106, 100⟩
        70000 := by
  refine ⟨(laRealloc_keeps_iff noPages_grants oneBlock_represents oneBlock_live (by norm_num)).1
    (.inl (by norm_num)), fun hk => ?_⟩
  obtain hle | ⟨-, ⟨B, hB, hgap⟩ | hask⟩ := (laRealloc_keeps_iff noPages_grants
    oneBlock_represents oneBlock_live (by norm_num)).2 (.inl (by norm_num)) hk
  · norm_num at hle
  · have hroom := (oneBlock_represents.stored B hB).inOrder.room hgap
    obtain rfl := List.mem_singleton.mp hB
    dsimp only at hroom
    omega
  · exact hask rfl

/-- When no memory can be had, `la_realloc` copies the data to `NULL`. -/
theorem laRealloc_copies_to_null :
    laRealloc (fun _ _ => none) oneBlock 4148 70000 = .error .badAccess ∧
      ¬ KeepsData (fun _ _ => none) oneBlock [⟨4096, 65536, [⟨4120, 106, 100⟩]⟩] ⟨4120, 106, 100⟩
        70000 := by
  obtain ⟨h₁, q, hfound, -, ⟨⟨B, hB, hgap⟩ | hask, -⟩ | ⟨-, rfl, -⟩⟩ :=
    oneBlock_represents.laMalloc_serves noPages_grants (show 70000 + 54 < 2 ^ 32 by norm_num)
  · have hroom := (oneBlock_represents.stored B hB).inOrder.room hgap
    obtain rfl := List.mem_singleton.mp hB
    dsimp only at hroom
    omega
  · exact absurd rfl hask
  · have he := oneBlock_represents.laRealloc_without oneBlock_live (by norm_num) hfound
    rw [if_neg (by norm_num)] at he
    refine ⟨he, fun ⟨h', p, hok, _⟩ => ?_⟩
    rw [show Cell.ptr ⟨4120, 106, 100⟩ = 4148 from rfl] at hok he
    rw [he] at hok
    cases hok

end Racoon.Liballoc
