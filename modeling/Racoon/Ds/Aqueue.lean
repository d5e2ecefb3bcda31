import Racoon.Machine
import Racoon.Lib.Run

/-!
# The atomic queue of `ds/aqueue.c`

Objects sit in pages of `obj_count` slots. `aqueue_add` writes behind the last
object and asks for a page when the last one is full; `aqueue_next` reads from
the front, drops the pages it has left behind and rebases both positions. The
queue is meant as a FIFO, which `Fifo` states of a whole run: what was returned
is the front of what was accepted, and what is still unread is in the pages.

`aqueue_add` returns without moving `last_position`. The queue therefore counts
no object at all, and a run keeps the law only while no page is ever granted.
-/

namespace Racoon.AtomicQueue
open Lib
variable {α : Type}

/-- The slots behind the header of a `struct aqueue_page`. -/
abbrev Page (α : Type) := ℕ → Option α

/-- `struct aqueue`. The list `page` is the chain from `page` to `last_page`. -/
structure Aqueue (α : Type) where
  pages : ℕ
  objSize : ℕ
  objCount : ℕ
  position : ℕ
  lastPosition : ℕ
  page : List (Page α)

def aqueueCreate (size count : ℕ) : Aqueue α :=
  ⟨0, size, count, 0, 0, []⟩

/-- The size of a new page: its header is one pointer. -/
def pageRequest (size count : ℕ) : ℕ := add32 4 (count * size)

/-- The `kmemcpy` into slot `pageMod` of `last_page`. -/
def store (aq : Aqueue α) (pageMod : ℕ) (obj : α) : Outcome (Aqueue α × ℤ) := do
  let last ← deref aq.page.getLast?
  .ok ({ aq with page := aq.page.dropLast ++ [Function.update last pageMod (some obj)] }, 0)

/-- `kmalloc` tells which request sizes are granted. No branch changes `lastPosition`. -/
def aqueueAdd (kmalloc : ℕ → Bool) (aq : Aqueue α) (obj : α) : Outcome (Aqueue α × ℤ) :=
  let pageDiv := aq.lastPosition / aq.objCount
  let pageMod := aq.lastPosition % aq.objCount
  if pageMod = 0 ∧ aq.pages ≤ pageDiv then
    if kmalloc (pageRequest aq.objSize aq.objCount) then
      store { aq with pages := aq.pages + 1, page := aq.page ++ [fun _ => none] } pageMod obj
    else .ok (aq, -1)
  else store aq pageMod obj

/-- The loop of `aqueue_next` that frees the pages before the one to read from. -/
def dropPages : ℕ → Aqueue α → Outcome (Aqueue α)
  | 0, aq => .ok aq
  | pageDiv + 1, aq =>
    match aq.page with
    | [] => .error .badAccess
    | _ :: rest => do
      assert (rest.isEmpty = false)
      dropPages pageDiv { aq with
        page := rest
        lastPosition := sub32 aq.lastPosition aq.objCount
        position := sub32 aq.position aq.objCount
        pages := sub32 aq.pages 1 }

def aqueueNext (aq : Aqueue α) : Outcome (Aqueue α × Option α) := do
  let pageDiv := aq.position / aq.objCount
  let pageMod := aq.position % aq.objCount
  assert (aq.position ≠ aq.lastPosition)
  let aq ← dropPages pageDiv aq
  let first ← deref aq.page.head?
  .ok ({ aq with position := add32 aq.position 1 }, first pageMod)

def aqueueCount (aq : Aqueue α) : ℕ := sub32 aq.lastPosition aq.position

/-- The slot of the pages that position `n` names. -/
def slotAt (aq : Aqueue α) (n : ℕ) : Option α :=
  (aq.page[n / aq.objCount]?).bind (fun p => p (n % aq.objCount))

/-- The queue with its history: the objects whose `aqueue_add` returned 0 and those that
`aqueue_next` returned. -/
structure Run (α : Type) where
  queue : Aqueue α
  accepted : List α
  returned : List (Option α)

inductive Call (α : Type)
  | add (obj : α) (kmalloc : ℕ → Bool)
  | next

def Call.exec (s : Run α) : Call α → Outcome (Run α)
  | .add obj kmalloc => do
    let (aq, rc) ← aqueueAdd kmalloc s.queue obj
    .ok { s with queue := aq, accepted := if rc = 0 then s.accepted ++ [obj] else s.accepted }
  | .next => do
    let (aq, obj) ← aqueueNext s.queue
    .ok { s with queue := aq, returned := s.returned ++ [obj] }

/-- `aqueue_next` is called only on a queue that counts an object. -/
def Call.Permitted (s : Run α) : Call α → Prop
  | .add _ _ => True
  | .next => aqueueCount s.queue ≠ 0

def start (size count : ℕ) : Run α := ⟨aqueueCreate size count, [], []⟩

def aqueueSystem (α : Type) (size count : ℕ) : System (Run α) (Call α) Fault where
  Init s := s = start size count
  Guard s c := c.Permitted s
  step s c := c.exec s

/-- The FIFO law of a state reached with its history. -/
structure Fifo (s : Run α) : Prop where
  order : s.returned = (s.accepted.take s.returned.length).map some
  count : aqueueCount s.queue + s.returned.length = s.accepted.length
  unread : ∀ k < aqueueCount s.queue,
    slotAt s.queue (s.queue.position + k) = s.accepted[s.returned.length + k]?
  refused : ∀ kmalloc obj aq, aqueueAdd kmalloc s.queue obj = .ok (aq, -1) → aq = s.queue
  safe : ∀ c : Call α, c.Permitted s → ∃ t, c.exec s = .ok t

/-- The add is refused its page. -/
def Call.Refused (size count : ℕ) : Call α → Prop
  | .add _ kmalloc => kmalloc (pageRequest size count) = false
  | .next => True

/-- What every run keeps: both positions stay 0, and pages exist once an add was granted one. -/
structure Stuck (size count : ℕ) (is : List (Call α)) (s : Run α) : Prop where
  objSize : s.queue.objSize = size
  objCount : s.queue.objCount = count
  position : s.queue.position = 0
  lastPosition : s.queue.lastPosition = 0
  pages : s.queue.pages = 0 ↔ s.queue.page = []
  returned : s.returned = []
  accepted : s.accepted = [] ↔ s.queue.page = []
  refused : s.accepted = [] ↔ ∀ c ∈ is, c.Refused size count

theorem Stuck.count_eq {size count : ℕ} {is : List (Call α)} {s : Run α}
    (h : Stuck size count is s) : aqueueCount s.queue = 0 := by
  simp [aqueueCount, h.position, h.lastPosition, sub32]

theorem store_nonempty (aq : Aqueue α) (h : aq.page ≠ []) (pageMod : ℕ) (obj : α) :
    ∃ ps, ps ≠ [] ∧ store aq pageMod obj = .ok ({ aq with page := ps }, 0) := by
  refine ⟨aq.page.dropLast ++ [Function.update (aq.page.getLast h) pageMod (some obj)], ?_, ?_⟩
  · simp
  · simp only [store, List.getLast?_eq_some_getLast h, deref_some, ok_bind]

/-- One `aqueue_add` on a queue whose positions are 0: a refused page leaves it as it was, and
otherwise only the pages change. -/
theorem aqueueAdd_stuck {size count : ℕ} {is : List (Call α)} {s : Run α}
    (h : Stuck size count is s) (kmalloc : ℕ → Bool) (obj : α) :
    (s.queue.page = [] ∧ kmalloc (pageRequest size count) = false ∧
      aqueueAdd kmalloc s.queue obj = .ok (s.queue, -1)) ∨
    ((s.queue.page ≠ [] ∨ kmalloc (pageRequest size count) = true) ∧ ∃ n ps, n ≠ 0 ∧ ps ≠ [] ∧
      aqueueAdd kmalloc s.queue obj = .ok ({ s.queue with pages := n, page := ps }, 0)) := by
  by_cases hp : s.queue.page = []
  · have hn := h.pages.mpr hp
    cases hk : kmalloc (pageRequest size count) with
    | false =>
      left
      simp [aqueueAdd, h.lastPosition, h.objSize, h.objCount, hn, hk, hp]
    | true =>
      right
      obtain ⟨ps, hps, hs⟩ := store_nonempty
        { s.queue with pages := 1, page := s.queue.page ++ [fun _ => none] } (by simp) 0 obj
      refine ⟨.inr rfl, 1, ps, one_ne_zero, hps, ?_⟩
      simpa [aqueueAdd, h.lastPosition, h.objSize, h.objCount, hn, hk] using hs
  · have hn : s.queue.pages ≠ 0 := mt h.pages.mp hp
    obtain ⟨ps, hps, hs⟩ := store_nonempty s.queue hp 0 obj
    refine .inr ⟨.inl hp, s.queue.pages, ps, hn, hps, ?_⟩
    simpa [aqueueAdd, h.lastPosition, hn] using hs

theorem stuck_start (size count : ℕ) : @Stuck α size count [] (start size count) := by
  constructor <;> simp [start, aqueueCreate]

/-- The step lemma: `aqueue_next` is never permitted, and `aqueue_add` moves no position. -/
theorem Stuck.step {size count : ℕ} {is : List (Call α)} {s t : Run α} {c : Call α}
    (h : Stuck size count is s) (hc : c.Permitted s) (ht : c.exec s = .ok t) :
    Stuck size count (is ++ [c]) t := by
  cases c with
  | next => exact absurd h.count_eq hc
  | add obj kmalloc =>
    rcases aqueueAdd_stuck h kmalloc obj with ⟨hp, hk, ha⟩ | ⟨hk, n, ps, hn, hps, ha⟩
    · simp only [Call.exec, ha, ok_bind, Except.ok.injEq] at ht
      subst ht
      have hr := h.refused.mp (h.accepted.mpr hp)
      refine ⟨h.objSize, h.objCount, h.position, h.lastPosition, h.pages, h.returned, ?_, ?_⟩
      · simpa using h.accepted
      · simp only [h.accepted.mpr hp, List.mem_append, List.mem_singleton]
        simp only [show ¬ ((-1 : ℤ) = 0) by omega, if_false, true_iff]
        rintro c (hm | rfl)
        · exact hr c hm
        · exact hk
    · simp only [Call.exec, ha, ok_bind, Except.ok.injEq] at ht
      subst ht
      refine ⟨h.objSize, h.objCount, h.position, h.lastPosition, ?_, h.returned, ?_, ?_⟩
      · simp [hn, hps]
      · simp [hps]
      · simp only [if_true, List.append_eq_nil_iff, List.cons_ne_self, and_false, false_iff]
        intro hall
        rcases hk with hp | hk
        · refine hp (h.accepted.mp (h.refused.mpr fun c hm => hall c ?_))
          exact List.mem_append_left _ hm
        · have := hall (.add obj kmalloc) (by simp)
          simp [Call.Refused, hk] at this

theorem stuck_of_steps {size count : ℕ} {is : List (Call α)} {s : Run α}
    (h : (aqueueSystem α size count).Steps (start size count) is s) : Stuck size count is s := by
  induction h with
  | nil => exact stuck_start size count
  | snoc _ hg ht ih => exact ih.step hg ht

theorem Stuck.fifo {size count : ℕ} {is : List (Call α)} {s : Run α} (h : Stuck size count is s)
    (ha : s.accepted = []) : Fifo s where
  order := by simp [h.returned]
  count := by simp [h.count_eq, h.returned, ha]
  unread k hk := by simp [h.count_eq] at hk
  refused kmalloc obj aq hq := by
    rcases aqueueAdd_stuck h kmalloc obj with ⟨_, _, he⟩ | ⟨_, _, _, _, _, he⟩
    · rw [he] at hq
      simp only [Except.ok.injEq, Prod.mk.injEq] at hq
      exact hq.1.symm
    · simp [he] at hq
  safe c hc := by
    cases c with
    | next => exact absurd h.count_eq hc
    | add obj kmalloc =>
      rcases aqueueAdd_stuck h kmalloc obj with ⟨_, _, he⟩ | ⟨_, _, _, _, _, he⟩ <;>
        simp [Call.exec, he]

/-- A run is a FIFO exactly when every `aqueue_add` in it was refused its page. -/
theorem fifo_iff_refused (size count : ℕ) {is : List (Call α)} {s : Run α}
    (h : (aqueueSystem α size count).Steps (start size count) is s) :
    Fifo s ↔ ∀ c ∈ is, c.Refused size count := by
  have hs := stuck_of_steps h
  rw [← hs.refused]
  refine ⟨fun hf => ?_, hs.fifo⟩
  have hc := hf.count
  rw [hs.count_eq, hs.returned] at hc
  exact List.eq_nil_of_length_eq_zero hc.symm

/-- One object accepted into a queue of one-object pages: the count is still 0. -/
def oneAdd : Run ℕ :=
  ⟨⟨1, 4, 1, 0, 0, [Function.update (fun _ => none) 0 (some 7)]⟩, [7], []⟩

theorem oneAdd_steps : (aqueueSystem ℕ 4 1).Steps (start 4 1) [.add 7 fun _ => true] oneAdd :=
  .one trivial rfl

theorem fifo_iff_refused_oneAdd : ¬ Fifo oneAdd := by
  rw [fifo_iff_refused 4 1 oneAdd_steps]
  simp [Call.Refused]

theorem aqueue_not_fifo : ¬ ∀ (is : List (Call ℕ)) (s : Run ℕ),
    (aqueueSystem ℕ 4 1).Steps (start 4 1) is s → Fifo s := by
  intro hall
  have hc := (hall _ oneAdd oneAdd_steps).count
  exact absurd hc (by decide)

end Racoon.AtomicQueue
