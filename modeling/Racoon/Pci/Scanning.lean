import Racoon.Pci.Configuration

/-!
# The scan of the buses

`pci_scan_all` probes into `*pcfg`. The pointer has no value before the first function is found;
from then on it points to the block that was allocated for the function found last, so that what
the list keeps for a function is what later probes read.
-/

namespace Racoon.Pci

/-- The bus, device and number of a function. -/
abbrev Place := ℕ × ℕ × ℕ

/-- What `pci_scan_all` runs on: the functions, the structures in memory, its local `pcfg`, the
structures along `pci_list`, and how many blocks were allocated. -/
structure Scan (σ : Type) where
  hw : σ
  heap : ℕ → PciCfg
  pcfg : ℕ
  list : List ℕ
  blocks : ℕ

/-- The walk to the end of the list. -/
def pciAddList : List ℕ → ℕ → List ℕ
  | [], item => [item]
  | tmp :: rest, item => tmp :: pciAddList rest item

section Scanning
variable {σ : Type} (b : Bridge σ) (kmalloc : ℕ → ℕ)

/-- The body of the three loops; the `n`-th block is `kmalloc n`. -/
def scanFunction (s : Scan σ) (p : Place) : Scan σ :=
  let (r, cfg, hw) := pciProbe b p.1 p.2.1 p.2.2 (s.heap s.pcfg) s.hw
  let s := { s with hw := hw, heap := Function.update s.heap s.pcfg cfg }
  if r = 0 then
    if cfg.vendorId = 0 ∧ cfg.deviceId = 0 then s
    else
      let pcfg := kmalloc s.blocks
      { s with pcfg := pcfg, list := pciAddList s.list pcfg, blocks := s.blocks + 1 }
  else s

def pciScanAll (s : Scan σ) : Scan σ :=
  (List.range 4).foldl (fun s bus =>
    (List.range 32).foldl (fun s dev =>
      (List.range 8).foldl (fun s func => scanFunction b kmalloc s (bus, dev, func)) s) s) s

/-- The places in the order of the loops. -/
def scanned : List Place := List.range 4 ×ˢ List.range 32 ×ˢ List.range 8

end Scanning

/-- The loop of `pci_find_cfg`: what is copied to the caller, if anything is. -/
def pciFindCfg (heap : ℕ → PciCfg) (vendorId deviceId : BitVec 16) (num : ℤ) :
    ℤ → List ℕ → Option PciCfg
  | _, [] => none
  | count, tmp :: rest =>
    if (heap tmp).vendorId = vendorId ∧ (heap tmp).deviceId = deviceId then
      if count = num then some (heap tmp)
      else pciFindCfg heap vendorId deviceId num (count + 1) rest
    else pciFindCfg heap vendorId deviceId num count rest

/-- The loop of `pci_find_probe`. -/
def pciFindProbe (heap : ℕ → PciCfg) (bus dev func : ℕ) : List ℕ → Option PciCfg
  | [] => none
  | tmp :: rest =>
    if (heap tmp).bus.toNat = bus ∧ (heap tmp).dev.toNat = dev ∧ (heap tmp).func.toNat = func then
      some (heap tmp)
    else pciFindProbe heap bus dev func rest

/-- `init_pci` finds the list empty; `pcfg` and the memory have any contents. -/
def Scan.start {σ : Type} (hw : σ) (heap : ℕ → PciCfg) (wild : ℕ) : Scan σ :=
  ⟨hw, heap, wild, [], 0⟩

/-- A probe of the function succeeds and its ids are not both zero. -/
def Present {σ : Type} (b : Bridge σ) (hw : σ) (p : Place) : Prop :=
  (ids b hw p.1 p.2.1 p.2.2).setWidth 16 ≠ 0xFFFF ∧
    ¬ ((ids b hw p.1 p.2.1 p.2.2).setWidth 16 = 0 ∧
      (ids b hw p.1 p.2.1 p.2.2 >>> 16).setWidth 16 = 0)

instance {σ : Type} (b : Bridge σ) (hw : σ) (p : Place) : Decidable (Present b hw p) :=
  inferInstanceAs (Decidable (_ ∧ _))

/-- The functions present among the places, each with what its probe has left in `*pcfg`. -/
def found {σ : Type} (b : Bridge σ) (kmalloc : ℕ → ℕ) : List Place → Scan σ →
    List (Place × PciCfg)
  | [], _ => []
  | p :: rest, s =>
    let later := found b kmalloc rest (scanFunction b kmalloc s p)
    if Present b s.hw p then
      (p, (pciProbe b p.1 p.2.1 p.2.2 (s.heap s.pcfg) s.hw).2.1) :: later
    else later

/-- The list holds what was probed, in scan order, and both look-ups find it. -/
structure Records {σ : Type} (b : Bridge σ) (kmalloc : ℕ → ℕ) (s : Scan σ) : Prop where
  entries : (pciScanAll b kmalloc s).list.map (pciScanAll b kmalloc s).heap =
    (found b kmalloc scanned s).map Prod.snd
  probes : ∀ p cfg, (p, cfg) ∈ found b kmalloc scanned s →
    pciFindProbe (pciScanAll b kmalloc s).heap p.1 p.2.1 p.2.2 (pciScanAll b kmalloc s).list =
      some cfg
  cfgs : ∀ vendorId deviceId (n : ℕ),
    pciFindCfg (pciScanAll b kmalloc s).heap vendorId deviceId n 0 (pciScanAll b kmalloc s).list =
      (((found b kmalloc scanned s).map Prod.snd).filter fun cfg =>
        cfg.vendorId = vendorId ∧ cfg.deviceId = deviceId)[n]?

section Lookups
variable {heap : ℕ → PciCfg}

theorem pciFindCfg_eq (heap : ℕ → PciCfg) (vendorId deviceId : BitVec 16) (n c : ℕ) (l : List ℕ) :
    pciFindCfg heap vendorId deviceId ((c + n : ℕ) : ℤ) c l =
      ((l.map heap).filter fun cfg =>
        cfg.vendorId = vendorId ∧ cfg.deviceId = deviceId)[n]? := by
  induction l generalizing c n with
  | nil => rfl
  | cons tmp rest ih =>
    rw [pciFindCfg, List.map_cons]
    split
    · rename_i hmatch
      rw [List.filter_cons_of_pos (by simpa using hmatch)]
      cases n with
      | zero => rw [if_pos (by simp), List.getElem?_cons_zero]
      | succ n =>
        have hnext := ih n (c + 1)
        rw [if_neg (by omega), List.getElem?_cons_succ, ← hnext]
        congr 1
        omega
    · rename_i hmatch
      rw [List.filter_cons_of_neg (by simpa using hmatch)]
      exact ih n c

theorem mem_scanned {p : Place} : p ∈ scanned ↔ p.1 < 4 ∧ p.2.1 < 32 ∧ p.2.2 < 8 := by
  unfold scanned
  rw [List.mem_product, List.mem_product, List.mem_range, List.mem_range, List.mem_range]

theorem scanned_nodup : scanned.Nodup :=
  List.nodup_range.product (List.nodup_range.product List.nodup_range)

/-- The bytes of the structure tell the places apart. -/
theorem PciCfg.At.toNat {cfg : PciCfg} {p : Place} (h : cfg.At p.1 p.2.1 p.2.2)
    (hp : p ∈ scanned) :
    cfg.bus.toNat = p.1 ∧ cfg.dev.toNat = p.2.1 ∧ cfg.func.toNat = p.2.2 := by
  have hrange := mem_scanned.mp hp
  rw [h.bus, h.dev, h.func]
  simp only [BitVec.toNat_ofNat]
  omega

theorem PciCfg.At.place_eq {cfg : PciCfg} {p q : Place} (h : cfg.At p.1 p.2.1 p.2.2)
    (h' : cfg.At q.1 q.2.1 q.2.2) (hp : p ∈ scanned) (hq : q ∈ scanned) : p = q := by
  obtain ⟨hbus, hdev, hfunc⟩ := h.toNat hp
  obtain ⟨hbus', hdev', hfunc'⟩ := h'.toNat hq
  exact Prod.ext (hbus.symm.trans hbus')
    (Prod.ext (hdev.symm.trans hdev') (hfunc.symm.trans hfunc'))

/-- Where every structure of the list names the place it was probed at, a place is found. -/
theorem pciFindProbe_eq {l : List ℕ} {fs : List (Place × PciCfg)}
    (hentries : l.map heap = fs.map Prod.snd)
    (hat : ∀ f ∈ fs, f.1 ∈ scanned ∧ f.2.At f.1.1 f.1.2.1 f.1.2.2)
    (hnodup : (fs.map Prod.fst).Nodup) {p : Place} {cfg : PciCfg} (hmem : (p, cfg) ∈ fs) :
    pciFindProbe heap p.1 p.2.1 p.2.2 l = some cfg := by
  induction fs generalizing l with
  | nil => cases hmem
  | cons f fs ih =>
    obtain ⟨tmp, rest, rfl, htmp, hrest⟩ := List.map_eq_cons_iff.mp hentries
    rw [List.map_cons, List.nodup_cons] at hnodup
    obtain ⟨hscanned, hplace⟩ := hat f List.mem_cons_self
    have hnums := hplace.toNat hscanned
    rw [pciFindProbe, htmp]
    rcases List.mem_cons.mp hmem with rfl | hlater
    · rw [if_pos hnums]
    · have hne : p ≠ f.1 := by
        rintro rfl
        exact hnodup.1 (List.mem_map.mpr ⟨_, hlater, rfl⟩)
      rw [if_neg, ih hrest (fun g hg => hat g (List.mem_cons_of_mem f hg)) hnodup.2 hlater]
      rintro ⟨hbus, hdev, hfunc⟩
      exact hne (Prod.ext (hbus.symm.trans hnums.1) (Prod.ext (hdev.symm.trans hnums.2.1)
        (hfunc.symm.trans hnums.2.2)))

end Lookups

section Rounds
variable {σ : Type} {b : Bridge σ} {kmalloc : ℕ → ℕ} {s : Scan σ} {p : Place}

theorem pciAddList_eq (l : List ℕ) (item : ℕ) : pciAddList l item = l ++ [item] := by
  induction l with
  | nil => rfl
  | cons tmp rest ih => rw [pciAddList, ih, List.cons_append]

/-- What the probe of a round returns. -/
def Scan.probe (b : Bridge σ) (s : Scan σ) (p : Place) : ℤ × PciCfg × σ :=
  pciProbe b p.1 p.2.1 p.2.2 (s.heap s.pcfg) s.hw

theorem Scan.probed (b : Bridge σ) (s : Scan σ) (p : Place) :
    Probed b p.1 p.2.1 p.2.2 s.hw (s.probe b p) :=
  pciProbe_probed p.1 p.2.1 p.2.2 (s.heap s.pcfg) s.hw

theorem scanFunction_of_present (h : Present b s.hw p) :
    scanFunction b kmalloc s p =
      ⟨(s.probe b p).2.2, Function.update s.heap s.pcfg (s.probe b p).2.1, kmalloc s.blocks,
        s.list ++ [kmalloc s.blocks], s.blocks + 1⟩ := by
  have hprobed := s.probed b p
  obtain ⟨hvendor, hids⟩ := h
  have hok := hprobed.ok.mpr (hprobed.vendorId ▸ hvendor)
  rw [← hprobed.vendorId, ← hprobed.deviceId] at hids
  unfold scanFunction
  rw [← Scan.probe]
  dsimp only
  rw [if_pos hok, if_neg hids, pciAddList_eq]

theorem scanFunction_of_absent (h : ¬ Present b s.hw p) :
    scanFunction b kmalloc s p =
      { s with hw := (s.probe b p).2.2
               heap := Function.update s.heap s.pcfg (s.probe b p).2.1 } := by
  have hprobed := s.probed b p
  unfold scanFunction
  rw [← Scan.probe]
  dsimp only
  by_cases hok : (s.probe b p).1 = 0
  · have hvendor := hprobed.ok.mp hok
    rw [hprobed.vendorId] at hvendor
    have hids := not_not.mp fun hne => h ⟨hvendor, hne⟩
    rw [← hprobed.vendorId, ← hprobed.deviceId] at hids
    rw [if_pos hok, if_pos hids]
  · rw [if_neg hok]

theorem scanFunction_hw : (scanFunction b kmalloc s p).hw = (s.probe b p).2.2 := by
  by_cases h : Present b s.hw p
  · rw [scanFunction_of_present h]
  · rw [scanFunction_of_absent h]

theorem scanFunction_heap :
    (scanFunction b kmalloc s p).heap = Function.update s.heap s.pcfg (s.probe b p).2.1 := by
  by_cases h : Present b s.hw p
  · rw [scanFunction_of_present h]
  · rw [scanFunction_of_absent h]

/-- Probing does not change which functions are present. -/
theorem present_scanFunction (p q : Place) :
    Present b (scanFunction b kmalloc s p).hw q ↔ Present b s.hw q := by
  have hids : ids b (scanFunction b kmalloc s p).hw q.1 q.2.1 q.2.2 =
      ids b s.hw q.1 q.2.1 q.2.2 := by
    rw [scanFunction_hw]
    refine (s.probed b p).header _ ?_
    rw [register_confadd]
    decide
  unfold Present
  rw [hids]

theorem present_foldl (kmalloc : ℕ → ℕ) (l : List Place) (q : Place) :
    Present b (l.foldl (scanFunction b kmalloc) s).hw q ↔ Present b s.hw q := by
  induction l generalizing s with
  | nil => rfl
  | cons p l ih => rw [List.foldl_cons, ih, present_scanFunction]

theorem found_append (l l' : List Place) :
    found b kmalloc (l ++ l') s =
      found b kmalloc l s ++ found b kmalloc l' (l.foldl (scanFunction b kmalloc) s) := by
  induction l generalizing s with
  | nil => rfl
  | cons p l ih =>
    rw [List.cons_append, found, found, List.foldl_cons, ih]
    split <;> rfl

/-- The list grows by one structure for each function that is found. -/
theorem foldl_list (b : Bridge σ) (kmalloc : ℕ → ℕ) (l : List Place) (s : Scan σ) :
    ∃ added, (l.foldl (scanFunction b kmalloc) s).list = s.list ++ added ∧
      added.length = (found b kmalloc l s).length := by
  induction l generalizing s with
  | nil => exact ⟨[], (List.append_nil _).symm, rfl⟩
  | cons p l ih =>
    obtain ⟨added, hlist, hlength⟩ := ih (scanFunction b kmalloc s p)
    rw [List.foldl_cons, found]
    by_cases h : Present b s.hw p
    · rw [if_pos h]
      refine ⟨kmalloc s.blocks :: added, ?_, congrArg (· + 1) hlength⟩
      rw [hlist, scanFunction_of_present h, List.append_assoc, List.singleton_append]
    · rw [if_neg h]
      refine ⟨added, ?_, hlength⟩
      rw [hlist, scanFunction_of_absent h]

/-- Where nothing is found, only the structure at `pcfg` is written. -/
structure Idle (s s' : Scan σ) : Prop where
  pcfg : s'.pcfg = s.pcfg
  list : s'.list = s.list
  blocks : s'.blocks = s.blocks
  heap : ∀ x ≠ s.pcfg, s'.heap x = s.heap x

theorem foldl_idle {l : List Place} (h : ∀ p ∈ l, ¬ Present b s.hw p) :
    Idle s (l.foldl (scanFunction b kmalloc) s) ∧ found b kmalloc l s = [] := by
  induction l generalizing s with
  | nil => exact ⟨⟨rfl, rfl, rfl, fun _ _ => rfl⟩, rfl⟩
  | cons p l ih =>
    have hp := h p List.mem_cons_self
    have hl : ∀ q ∈ l, ¬ Present b (scanFunction b kmalloc s p).hw q := fun q hq =>
      (present_scanFunction p q).not.mpr (h q (List.mem_cons_of_mem p hq))
    obtain ⟨hidle, hnone⟩ := ih hl
    rw [List.foldl_cons, found, if_neg hp]
    rw [scanFunction_of_absent hp] at hidle hnone ⊢
    exact ⟨⟨hidle.pcfg, hidle.list, hidle.blocks, fun x hx =>
      (hidle.heap x hx).trans (Function.update_of_ne hx _ _)⟩, hnone⟩

/-- The structure cannot be the one that a successful probe of the place has left. -/
def Lost (p : Place) (cfg : PciCfg) : Prop :=
  cfg.vendorId = 0xFFFF ∨ ¬ cfg.At p.1 p.2.1 p.2.2

/-- Whatever another probe writes is not the configuration of `p`. -/
theorem Scan.probe_lost (s : Scan σ) {q : Place} (hp : p ∈ scanned) (hq : q ∈ scanned)
    (hne : q ≠ p) : Lost p (s.probe b q).2.1 := by
  by_cases hvendor : (s.probe b q).2.1.vendorId = 0xFFFF
  · exact .inl hvendor
  · have hat := (s.probed b q).place ((s.probed b q).ok.mpr hvendor)
    exact .inr fun h => hne (hat.place_eq h hq hp)

theorem lost_foldl {l : List Place} {x : ℕ} (hp : p ∈ scanned)
    (hl : ∀ q ∈ l, q ∈ scanned ∧ q ≠ p) (h : Lost p (s.heap x)) :
    Lost p ((l.foldl (scanFunction b kmalloc) s).heap x) := by
  induction l generalizing s with
  | nil => exact h
  | cons q l ih =>
    obtain ⟨hq, hne⟩ := hl q List.mem_cons_self
    refine ih (fun r hr => hl r (List.mem_cons_of_mem q hr)) ?_
    rw [scanFunction_heap]
    by_cases hx : x = s.pcfg
    · subst hx
      rw [Function.update_self]
      exact s.probe_lost hp hq hne
    · rw [Function.update_of_ne hx]
      exact h

/-- The functions that are found are among the places, in their order, and the structures name
them. -/
theorem found_sublist (b : Bridge σ) (kmalloc : ℕ → ℕ) (l : List Place) (s : Scan σ) :
    ((found b kmalloc l s).map Prod.fst).Sublist l := by
  induction l generalizing s with
  | nil => exact List.Sublist.refl []
  | cons p l ih =>
    rw [found]
    split
    · exact (ih _).cons_cons p
    · exact (ih _).cons p

theorem found_at {l : List Place} {f : Place × PciCfg} (h : f ∈ found b kmalloc l s) :
    f.2.At f.1.1 f.1.2.1 f.1.2.2 := by
  induction l generalizing s with
  | nil => cases h
  | cons p l ih =>
    rw [found] at h
    split at h
    · rename_i hpresent
      rcases List.mem_cons.mp h with rfl | hlater
      · have hprobed := s.probed b p
        exact hprobed.place (hprobed.ok.mpr (hprobed.vendorId ▸ hpresent.1))
      · exact ih hlater
    · exact ih h

theorem pciScanAll_eq (s : Scan σ) :
    pciScanAll b kmalloc s = scanned.foldl (scanFunction b kmalloc) s := by
  change _ = List.foldl (scanFunction b kmalloc) s (List.product (List.range 4)
    (List.product (List.range 32) (List.range 8)))
  simp only [List.product, List.foldl_flatMap, List.foldl_map]
  rfl

/-- A list of the right structures is all that the look-ups need. -/
theorem records_of_entries (h : (pciScanAll b kmalloc s).list.map (pciScanAll b kmalloc s).heap =
    (found b kmalloc scanned s).map Prod.snd) : Records b kmalloc s where
  entries := h
  probes p cfg hmem := by
    have hsub := found_sublist b kmalloc scanned s
    exact pciFindProbe_eq h (fun f hf => ⟨hsub.subset (List.mem_map_of_mem hf), found_at hf⟩)
      (scanned_nodup.sublist hsub) hmem
  cfgs vendorId deviceId n := by
    have hfind := pciFindCfg_eq (pciScanAll b kmalloc s).heap vendorId deviceId n 0
      (pciScanAll b kmalloc s).list
    rw [h, Nat.zero_add] at hfind
    exact hfind

theorem scanned_getLast : scanned.getLast? = some (3, 31, 7) := by decide +kernel

/-- A round that finds a function and another round behind it: the block of the first does not
hold what was probed in it. -/
theorem present_lost (kmalloc : ℕ → ℕ) {q : Place} {after : List Place} (hp : p ∈ scanned)
    (hl : ∀ r ∈ q :: after, r ∈ scanned ∧ r ≠ p) (h : Present b s.hw p) :
    (((q :: after).foldl (scanFunction b kmalloc) (scanFunction b kmalloc s p)).heap
      (kmalloc s.blocks)) ≠ (s.probe b p).2.1 := by
  have hprobed := s.probed b p
  have hvendor : (s.probe b p).2.1.vendorId ≠ 0xFFFF := hprobed.vendorId ▸ h.1
  have hlost : Lost p (((q :: after).foldl (scanFunction b kmalloc)
      (scanFunction b kmalloc s p)).heap (kmalloc s.blocks)) := by
    obtain ⟨hq, hne⟩ := hl q List.mem_cons_self
    rw [List.foldl_cons]
    refine lost_foldl hp (fun r hr => hl r (List.mem_cons_of_mem q hr)) ?_
    rw [scanFunction_heap, scanFunction_of_present h, Function.update_self]
    exact Scan.probe_lost _ hp hq hne
  intro heq
  rw [heq] at hlost
  exact hlost.elim hvendor fun hat => hat (hprobed.place (hprobed.ok.mpr hvendor))

/-- The structure that the list has for a function, if it has one for each that is found. -/
theorem entry_of_found {before rest : List Place} (g : ℕ → PciCfg) (hempty : s.list = [])
    (hpresent : Present b (before.foldl (scanFunction b kmalloc) s).hw p)
    (h : ((before ++ p :: rest).foldl (scanFunction b kmalloc) s).list.map g =
      (found b kmalloc (before ++ p :: rest) s).map Prod.snd) :
    g (kmalloc (before.foldl (scanFunction b kmalloc) s).blocks) =
      ((before.foldl (scanFunction b kmalloc) s).probe b p).2.1 := by
  obtain ⟨added, hlist, hlength⟩ := foldl_list b kmalloc before s
  rw [List.foldl_append, found_append] at h
  generalize before.foldl (scanFunction b kmalloc) s = t at h hpresent hlist ⊢
  obtain ⟨later, hlater, -⟩ := foldl_list b kmalloc rest (scanFunction b kmalloc t p)
  rw [List.foldl_cons, hlater, scanFunction_of_present hpresent, hlist, hempty, List.nil_append,
    List.append_assoc, List.singleton_append, found, if_pos hpresent, List.map_append,
    List.map_append, List.map_cons, List.map_cons] at h
  have hsame := (List.append_inj h (by simpa using hlength)).2
  exact (List.cons.inj hsame).1

/-- A function that is present, unless its place is the last one, loses its configuration to the
probe behind its own. -/
theorem not_records_of_present (hp : p ∈ scanned) (hlast : p ≠ (3, 31, 7)) (h : Present b s.hw p)
    (hempty : s.list = []) : ¬ Records b kmalloc s := by
  intro hrecords
  have hentries := hrecords.entries
  obtain ⟨before, rest, hsplit⟩ := List.append_of_mem hp
  cases rest with
  | nil =>
    have hget := scanned_getLast
    rw [hsplit, List.getLast?_concat] at hget
    exact hlast (Option.some.inj hget)
  | cons q after =>
    have hnodup := hsplit ▸ scanned_nodup
    have hl : ∀ r ∈ q :: after, r ∈ scanned ∧ r ≠ p := by
      intro r hr
      refine ⟨hsplit ▸ List.mem_append_right before (List.mem_cons_of_mem p hr), ?_⟩
      rintro rfl
      exact (List.nodup_cons.mp hnodup.of_append_right).1 hr
    have hpresent := (present_foldl kmalloc before p).mpr h
    have hlost := present_lost kmalloc hp hl hpresent
    rw [pciScanAll_eq, hsplit] at hentries
    have hentry := entry_of_found _ hempty hpresent hentries
    rw [List.foldl_append, List.foldl_cons] at hentry
    exact hlost hentry

end Rounds

/-- A structure that no probe has touched. -/
def PciCfg.blank : PciCfg :=
  ⟨0, 0, 0, 0, 0, 0, 0, 0, 0, 0, 0, 0, 0, 0, 0, 0, Vector.replicate 6 0, Vector.replicate 6 0,
    Vector.replicate 6 0, 0, 0, 0, 0, 0⟩

section Theorems
variable {σ : Type} {b : Bridge σ} {hw : σ} {kmalloc : ℕ → ℕ}

/-- Nothing is found, and nothing is recorded. -/
theorem records_of_absent {s : Scan σ} (h : ∀ p ∈ scanned, ¬ Present b s.hw p)
    (hempty : s.list = []) : Records b kmalloc s := by
  obtain ⟨hidle, hnone⟩ := foldl_idle h
  refine records_of_entries ?_
  rw [pciScanAll_eq, hidle.list, hnone, hempty]
  rfl

/-- A fresh block is not written any more when the function at the last place gets it. -/
theorem last_lost {s : Scan σ} (h : ∀ p ∈ scanned, p ≠ (3, 31, 7) → ¬ Present b s.hw p)
    (hlast : Present b s.hw (3, 31, 7)) (hempty : s.list = []) (hfresh : kmalloc s.blocks ≠ s.pcfg)
    (hblank : s.heap (kmalloc s.blocks) = PciCfg.blank) : ¬ Records b kmalloc s := by
  intro hrecords
  have hentries := hrecords.entries
  obtain ⟨before, hsplit⟩ := List.getLast?_eq_some_iff.mp scanned_getLast
  have hnodup := hsplit ▸ scanned_nodup
  have hbefore : ∀ p ∈ before, ¬ Present b s.hw p := by
    intro p hp
    refine h p (hsplit ▸ List.mem_append_left _ hp) ?_
    rintro rfl
    exact (List.nodup_append.mp hnodup).2.2 _ hp _ List.mem_cons_self rfl
  obtain ⟨hidle, -⟩ := foldl_idle hbefore
  have hpresent := (present_foldl kmalloc before (3, 31, 7)).mpr hlast
  rw [pciScanAll_eq, hsplit] at hentries
  have hentry := entry_of_found _ hempty hpresent hentries
  rw [List.foldl_append, List.foldl_cons, List.foldl_nil, scanFunction_heap, hidle.pcfg,
    hidle.blocks, Function.update_of_ne hfresh, hidle.heap _ hfresh, hblank] at hentry
  have hprobed := Scan.probed b (before.foldl (scanFunction b kmalloc) s) (3, 31, 7)
  have hat := hprobed.place (hprobed.ok.mpr (hprobed.vendorId ▸ hpresent.1))
  rw [← hentry] at hat
  exact absurd hat.bus (by decide)

end Theorems

/-- The scan records what it probed, whatever `pcfg` pointed to, whatever the memory held and
whichever blocks `kmalloc` hands out, exactly where no function is present. A function at any place
but the last is not even recorded by chance. -/
theorem pciScanAll_records_iff {σ : Type} (b : Bridge σ) (hw : σ) :
    ((∀ heap wild (kmalloc : ℕ → ℕ), kmalloc.Injective →
      Records b kmalloc (Scan.start hw heap wild)) ↔ ∀ p ∈ scanned, ¬ Present b hw p) ∧
    ∀ p ∈ scanned, p ≠ (3, 31, 7) → Present b hw p →
      ∀ heap wild kmalloc, ¬ Records b kmalloc (Scan.start hw heap wild) := by
  refine ⟨⟨fun h => ?_, fun h _ _ _ _ => records_of_absent h rfl⟩,
    fun p hp hlast hpresent heap wild kmalloc => not_records_of_present hp hlast hpresent rfl⟩
  have hothers : ∀ p ∈ scanned, p ≠ (3, 31, 7) → ¬ Present b hw p := fun p hp hlast hpresent =>
    not_records_of_present hp hlast hpresent rfl
      (h (fun _ => PciCfg.blank) 0 (· + 1) (add_left_injective 1))
  intro p hp hpresent
  by_cases hlast : p = (3, 31, 7)
  · subst hlast
    exact last_lost (s := Scan.start hw (fun _ => PciCfg.blank) 0) hothers hpresent rfl
      one_ne_zero rfl (h (fun _ => PciCfg.blank) 0 (· + 1) (add_left_injective 1))
  · exact hothers p hp hlast hpresent

/-- A host bridge without base registers at the first place, and nothing else. -/
def hostBridge : Bridge (BitVec 32 → BitVec 32) where
  read s a := s a
  write s _ _ := s
  header _ _ _ _ _ _ := rfl

def hostBridgeOnly : BitVec 32 → BitVec 32 := fun a =>
  if a = 0x80000000 then 0x12378086
  else if a = 0x80000008 then 0x06000002
  else if a >>> 8 = 0x800000 then 0
  else 0xFFFFFFFF

theorem pciScanAll_lone_function :
    ¬ ∃ heap wild kmalloc, Records hostBridge kmalloc (Scan.start hostBridgeOnly heap wild) := by
  rintro ⟨heap, wild, kmalloc, hrecords⟩
  have hpresent : Present hostBridge hostBridgeOnly (0, 0, 0) := by decide
  exact not_records_of_present (p := (0, 0, 0)) (mem_scanned.mpr (by decide)) (by decide)
    hpresent rfl hrecords

end Racoon.Pci
