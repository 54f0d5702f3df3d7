import SecdScheme.Scheme14.ListWalks
import SecdScheme.Lib.SideBySide

/-!
# system_lib.scm: queues

A queue is a pair of the list and its last pair. The list begins with a header,
which is never taken out. Enqueueing sets the last pair, dequeueing the header.
Any number of queues lie side by side in the pairs, each on pairs of its own.
-/

namespace SystemLib

open Scheme14 SideBySide

variable {X : Type}

/-! ## The procedures -/

/-- `make-queue`: a pair whose fields are both the header, a list of one seed. -/
def makeQueue (x : Value) : DataM X Value := do
  let seed ← makePair x .nil
  makePair seed seed

/-- `en-queue!`: the new cell goes behind the last one. -/
def enQueue (queue x : Value) : DataM X Value := do
  let q ← makePair x .nil
  let _ ← primSetCdr [← primCdr [queue], q]
  let _ ← primSetCdr [queue, q]
  return queue

/-- `de-queue!`: where the last element goes, the header is the last cell again. -/
def deQueue (queue : Value) : DataM X Value := do
  let head ← primCar [queue]
  let lst ← primCdar [queue]
  let val ← primCar [lst]
  let rest ← primCdr [lst]
  let _ ← primSetCdr [head, rest]
  if rest = .nil then
    let _ ← primSetCdr [queue, head]
  return val

/-- `get-queue-lst`: the elements, without the header. -/
def getQueueLst (queue : Value) : DataM X Value := primCdar [queue]

/-- `get-all-lst`: the header too. -/
def getAllLst (queue : Value) : DataM X Value := primCar [queue]

/-! ## Pairs -/

section Pairs

variable {s : Data X} {a : ℕ} {p : Value × Value}

/-- The state with another pair at an address. -/
def withPair (s : Data X) (a : ℕ) (p : Value × Value) : Data X :=
  { s with pairs := s.pairs.set a p }

theorem asPair_run (h : s.pairs[a]? = some p) : asPair (.pair a) s = (.ok p, s) := by
  show (Except.ok ((s.pairs[a]?).getD (.nil, .nil)), s) = _
  rw [h]
  rfl

theorem primCar_run (h : s.pairs[a]? = some p) : primCar [.pair a] s = (.ok p.1, s) := by
  show (asPair (.pair a) >>= fun p => pure p.1) s = _
  rw [Cmd.bind_run_ok (asPair_run h)]
  rfl

theorem primCdr_run (h : s.pairs[a]? = some p) : primCdr [.pair a] s = (.ok p.2, s) := by
  show (asPair (.pair a) >>= fun p => pure p.2) s = _
  rw [Cmd.bind_run_ok (asPair_run h)]
  rfl

theorem primCdar_run {b : ℕ} {v : Value} {q : Value × Value} (h : s.pairs[a]? = some (.pair b, v))
    (hb : s.pairs[b]? = some q) : primCdar [.pair a] s = (.ok q.2, s) := by
  show (asPair (.pair a) >>= fun p => cxr "cdar" ['d'] p.1) s = _
  rw [Cmd.bind_run_ok (asPair_run h)]
  show (asPair (.pair b) >>= fun p => pure p.2) s = _
  rw [Cmd.bind_run_ok (asPair_run hb)]
  rfl

theorem primSetCdr_run (h : s.pairs[a]? = some p) (v : Value) :
    primSetCdr [.pair a, v] s = (.ok v, withPair s a (p.1, v)) := by
  have hset : primSetCdr [.pair a, v] s = (asPair (.pair a) >>= fun p => do
      setPair (.pair a) (p.1, v)
      return v : DataM X Value) s := rfl
  rw [hset, Cmd.bind_run_ok (asPair_run h)]
  rfl

theorem withPair_self (h : s.pairs[a]? = some p) (p' : Value × Value) :
    (withPair s a p').pairs[a]? = some p' :=
  List.getElem?_set_self (List.getElem?_eq_some_iff.mp h).1

theorem withPair_of_ne {b : ℕ} (h : a ≠ b) (p' : Value × Value) :
    (withPair s a p').pairs[b]? = s.pairs[b]? := List.getElem?_set_ne h

end Pairs

/-! ## Queues in the pairs -/

/-- A cell: the address of a pair, and what it holds. -/
abbrev QueueCell := ℕ × Value

/-- The first of some cells, as a value. -/
def linkTo : List QueueCell → Value
  | [] => .nil
  | c :: _ => .pair c.1

/-- **Cells in a row**: each one leads to the next. -/
def Linked (s : Data X) : List QueueCell → Prop
  | [] => True
  | c :: cells => s.pairs[c.1]? = some (c.2, linkTo cells) ∧ Linked s cells

/-- The pairs of a queue. -/
def footprint (q : ℕ) (cells : List QueueCell) : List ℕ := q :: cells.map (·.1)

/-- **A queue** at an address: the header, its elements, and the last pair. -/
structure QueueAt (s : Data X) (q : ℕ) (header : QueueCell) (cells : List QueueCell) : Prop where
  queue : s.pairs[q]? = some (.pair header.1, .pair (cells.getLastD header).1)
  linked : Linked s (header :: cells)
  nodup : (footprint q (header :: cells)).Nodup

section Queues

variable {s s' : Data X} {q : ℕ} {header : QueueCell} {cells : List QueueCell}

theorem Linked.mono (h : Linked s cells)
    (hs : ∀ a ∈ cells.map (·.1), s'.pairs[a]? = s.pairs[a]?) : Linked s' cells := by
  induction cells with
  | nil => trivial
  | cons c cells ih =>
    refine ⟨(hs c.1 List.mem_cons_self).trans h.1, ih h.2 fun a ha => hs a ?_⟩
    exact List.mem_cons_of_mem _ ha

theorem Linked.isList (h : Linked s cells) : s.IsList (linkTo cells) (cells.map (·.2)) := by
  induction cells with
  | nil => rfl
  | cons c cells ih => exact ⟨c.1, linkTo cells, rfl, h.1, ih h.2⟩

/-- A queue whose pairs stay as they are. -/
theorem QueueAt.mono (h : QueueAt s q header cells)
    (hs : ∀ a ∈ footprint q (header :: cells), s'.pairs[a]? = s.pairs[a]?) :
    QueueAt s' q header cells :=
  ⟨(hs q List.mem_cons_self).trans h.queue,
    h.linked.mono fun a ha => hs a (List.mem_cons_of_mem _ ha), h.nodup⟩

theorem Linked.lt_length (h : Linked s cells) {a : ℕ} (ha : a ∈ cells.map (·.1)) :
    a < s.pairs.length := by
  induction cells with
  | nil => cases ha
  | cons c cells ih =>
    rcases List.mem_cons.mp ha with rfl | ha
    · exact (List.getElem?_eq_some_iff.mp h.1).1
    · exact ih h.2 ha

theorem QueueAt.lt_length (h : QueueAt s q header cells) {a : ℕ}
    (ha : a ∈ footprint q (header :: cells)) : a < s.pairs.length := by
  rcases List.mem_cons.mp ha with rfl | ha
  · exact (List.getElem?_eq_some_iff.mp h.queue).1
  · exact h.linked.lt_length ha

/-- **A cell is put at the end** of a row, when the last pair leads to it. -/
theorem Linked.snoc {c : QueueCell} (h : Linked s (header :: cells))
    (hnodup : ((header :: cells).map (·.1)).Nodup)
    (hold : ∀ a ∈ (header :: cells).map (·.1), a ≠ (cells.getLastD header).1 →
      s'.pairs[a]? = s.pairs[a]?)
    (hlast : s'.pairs[(cells.getLastD header).1]? =
      some ((cells.getLastD header).2, .pair c.1))
    (hnew : s'.pairs[c.1]? = some (c.2, .nil)) : Linked s' (header :: (cells ++ [c])) := by
  induction cells generalizing header with
  | nil => exact ⟨hlast, hnew, trivial⟩
  | cons d cells ih =>
    obtain ⟨hhead, hrest⟩ := List.nodup_cons.mp hnodup
    have hlastD : (d :: cells).getLastD header = cells.getLastD d := by cases cells <;> rfl
    rw [hlastD] at hlast hold
    refine ⟨?_, ih h.2 hrest (fun a ha => hold a (List.mem_cons_of_mem _ ha)) hlast⟩
    have hne : header.1 ≠ (cells.getLastD d).1 := fun heq =>
      hhead (List.mem_map.mpr ⟨cells.getLastD d, List.getLastD_mem_cons, heq.symm⟩)
    exact (hold header.1 List.mem_cons_self hne).trans h.1

theorem Linked.last (h : Linked s (header :: cells)) :
    s.pairs[(cells.getLastD header).1]? = some ((cells.getLastD header).2, .nil) := by
  induction cells generalizing header with
  | nil => exact h.1
  | cons d cells ih =>
    have hlastD : (d :: cells).getLastD header = cells.getLastD d := by cases cells <;> rfl
    rw [hlastD]
    exact ih h.2

/-- The pairs as cells. -/
def pairCells (X : Type) : Memory (Data X) (Option (Value × Value)) where
  size s := s.pairs.length
  cell s a := s.pairs[a]?

theorem makePair_run (x d : Value) (s : Data X) :
    makePair x d s = (.ok (.pair s.pairs.length), { s with pairs := s.pairs ++ [(x, d)] }) := rfl

/-- **`make-queue`**: an empty queue with a header. -/
theorem makeQueue_run (x : Value) (s : Data X) : ∃ s', makeQueue x s =
      (.ok (.pair (s.pairs.length + 1)), s') ∧
    QueueAt s' (s.pairs.length + 1) (s.pairs.length, x) [] ∧ Spares (pairCells X) [] s s' := by
  have hlen : (s.pairs ++ [(x, Value.nil)]).length = s.pairs.length + 1 := List.length_append
  refine ⟨{ s with pairs := (s.pairs ++ [(x, .nil)]) ++
    [(.pair s.pairs.length, .pair s.pairs.length)] }, ?_, ⟨?_, ⟨?_, trivial⟩, ?_⟩, ?_, ?_⟩
  · unfold makeQueue
    rw [Cmd.bind_run_ok (makePair_run x .nil s), makePair_run]
    rw [hlen]
  · rw [← hlen]
    exact List.getElem?_concat_length
  · show ((s.pairs ++ [(x, .nil)]) ++ [_])[s.pairs.length]? = _
    rw [List.getElem?_append_left (by rw [hlen]; exact Nat.lt_succ_self _)]
    exact List.getElem?_concat_length
  · exact List.nodup_cons.mpr ⟨fun h => Nat.succ_ne_self _ (List.mem_singleton.mp h),
      List.nodup_singleton _⟩
  · show s.pairs.length ≤ ((s.pairs ++ [(x, Value.nil)]) ++ [_]).length
    rw [List.length_append, hlen, Nat.add_assoc]
    exact Nat.le_add_right _ _
  · intro a ha _
    show ((s.pairs ++ [(x, .nil)]) ++ [_])[a]? = s.pairs[a]?
    rw [List.append_assoc, List.getElem?_append_left ha]

/-- **`en-queue!`** puts an element at the end. -/
theorem enQueue_run (h : QueueAt s q header cells) (x : Value) : ∃ s',
    enQueue (.pair q) x s = (.ok (.pair q), s') ∧
      QueueAt s' q header (cells ++ [(s.pairs.length, x)]) ∧
      Spares (pairCells X) (footprint q (header :: cells)) s s' := by
  have hq := h.lt_length List.mem_cons_self
  have hlast := h.linked.last
  have hmem : (cells.getLastD header).1 ∈ (header :: cells).map (·.1) :=
    List.mem_map_of_mem List.getLastD_mem_cons
  have hlt := h.linked.lt_length hmem
  obtain ⟨hqne, hcells⟩ := List.nodup_cons.mp h.nodup
  have hne : (cells.getLastD header).1 ≠ q := fun heq => hqne (heq ▸ hmem)
  generalize hl : cells.getLastD header = l at hlast hmem hlt hne
  -- the new pair, the pair that was the last one, and the queue
  let s₁ : Data X := { s with pairs := s.pairs ++ [(x, .nil)] }
  have hold : ∀ a < s.pairs.length, s₁.pairs[a]? = s.pairs[a]? := fun a ha =>
    List.getElem?_append_left ha
  have hq₁ : s₁.pairs[q]? = some (.pair header.1, .pair l.1) := by
    rw [hold q hq, h.queue, hl]
  have hl₁ : s₁.pairs[l.1]? = some (l.2, .nil) := (hold l.1 hlt).trans hlast
  let s₂ := withPair s₁ l.1 (l.2, .pair s.pairs.length)
  have hq₂ : s₂.pairs[q]? = some (.pair header.1, .pair l.1) :=
    (withPair_of_ne hne _).trans hq₁
  let s₃ := withPair s₂ q (.pair header.1, .pair s.pairs.length)
  have hframe : ∀ a < s.pairs.length, a ≠ l.1 → a ≠ q → s₃.pairs[a]? = s.pairs[a]? :=
    fun a ha hal haq => (withPair_of_ne (Ne.symm haq) _).trans
      ((withPair_of_ne (Ne.symm hal) _).trans (hold a ha))
  refine ⟨s₃, ?_, ⟨?_, ?_, ?_⟩, ?_, fun a ha hout => ?_⟩
  · unfold enQueue
    rw [Cmd.bind_run_ok (makePair_run x .nil s), Cmd.bind_run_ok (primCdr_run hq₁),
      Cmd.bind_run_ok (primSetCdr_run hl₁ _), Cmd.bind_run_ok (primSetCdr_run hq₂ _)]
    rfl
  · rw [List.getLastD_concat]
    exact withPair_self hq₂ _
  · refine h.linked.snoc hcells (fun a ha hal => ?_) ?_ ?_
    · exact hframe a (h.linked.lt_length ha) (hl ▸ hal) fun haq => hqne (haq ▸ ha)
    · rw [hl]
      exact (withPair_of_ne (Ne.symm hne) _).trans (withPair_self hl₁ _)
    · refine (withPair_of_ne hq.ne _).trans ((withPair_of_ne hlt.ne _).trans ?_)
      exact List.getElem?_concat_length
  · unfold footprint
    rw [← List.cons_append, List.map_append, ← List.cons_append]
    refine List.nodup_append.mpr ⟨h.nodup, List.nodup_singleton _, ?_⟩
    intro a ha b hb hab
    have hlt := h.lt_length ha
    rw [hab, List.mem_singleton.mp hb] at hlt
    exact Nat.lt_irrefl _ hlt
  · show s.pairs.length ≤ ((List.set (List.set (s.pairs ++ [_]) _ _) _ _)).length
    rw [List.length_set, List.length_set, List.length_append]
    exact Nat.le_add_right _ _
  · exact hframe a ha (fun hal => hout (List.mem_cons_of_mem _ (hal ▸ hmem)))
      fun haq => hout (haq ▸ List.mem_cons_self)

/-- **`de-queue!`** of an empty queue fails, and nothing is changed. -/
theorem deQueue_empty (h : QueueAt s q header []) :
    deQueue (.pair q) s =
      (.error (.scheme (.behind "car: wrong type of argument\n  " (expectedGiven "a pair" .nil)) true),
        s) := by
  unfold deQueue
  rw [Cmd.bind_run_ok (primCar_run h.queue), Cmd.bind_run_ok (primCdar_run h.queue h.linked.1)]
  rfl

/-- **`de-queue!`** takes the first element out. -/
theorem deQueue_run {c : QueueCell} (h : QueueAt s q header (c :: cells)) : ∃ s',
    deQueue (.pair q) s = (.ok c.2, s') ∧ QueueAt s' q header cells ∧
      Spares (pairCells X) (footprint q (header :: c :: cells)) s s' := by
  obtain ⟨hheader, hc, hrest⟩ := h.linked
  obtain ⟨hqne, hnodup⟩ := List.nodup_cons.mp h.nodup
  obtain ⟨hhne, hcells⟩ := List.nodup_cons.mp hnodup
  have hqh : header.1 ≠ q := fun heq => hqne (heq ▸ List.mem_cons_self)
  let s₁ := withPair s header.1 (header.2, linkTo cells)
  have hframe : ∀ a, a ≠ header.1 → s₁.pairs[a]? = s.pairs[a]? := fun a ha =>
    withPair_of_ne (Ne.symm ha) _
  have hq₁ : s₁.pairs[q]? = some (.pair header.1, .pair ((c :: cells).getLastD header).1) :=
    (hframe q (Ne.symm hqh)).trans h.queue
  have hlinked : Linked s₁ (header :: cells) :=
    ⟨withPair_self hheader _, hrest.mono fun a ha =>
      hframe a fun heq => by
        rw [heq] at ha
        exact hhne (List.mem_cons_of_mem _ ha)⟩
  have hnodup' : (footprint q (header :: cells)).Nodup :=
    h.nodup.sublist (.cons_cons _ (.cons_cons _ (.cons _ (.refl _))))
  have hspares : Spares (pairCells X) (footprint q (header :: c :: cells)) s s₁ :=
    ⟨(show (s.pairs.set _ _).length = _ from List.length_set).ge, fun a _ hout =>
      hframe a fun heq => hout (by
        rw [heq]
        exact List.mem_cons_of_mem _ List.mem_cons_self)⟩
  have hstart : deQueue (.pair q) s = (do
      if linkTo cells = .nil then
        let _ ← primSetCdr [.pair q, .pair header.1]
      return c.2 : DataM X Value) s₁ := by
    unfold deQueue
    rw [Cmd.bind_run_ok (primCar_run h.queue), Cmd.bind_run_ok (primCdar_run h.queue hheader)]
    show (primCar [.pair c.1] >>= fun val => primCdr [.pair c.1] >>= fun rest => _) s = _
    rw [Cmd.bind_run_ok (primCar_run hc), Cmd.bind_run_ok (primCdr_run hc),
      Cmd.bind_run_ok (primSetCdr_run hheader _)]
  rw [hstart]
  cases cells with
  | cons d cells =>
    refine ⟨s₁, rfl, ⟨hq₁, hlinked, hnodup'⟩, hspares⟩
  | nil =>
    refine ⟨withPair s₁ q (.pair header.1, .pair header.1), ?_, ⟨withPair_self hq₁ _, ?_, hnodup'⟩,
      ?_, fun a ha hout => ?_⟩
    · rw [if_pos (show linkTo [] = .nil from rfl), Cmd.bind_run_ok (primSetCdr_run hq₁ _)]
      rfl
    · exact hlinked.mono fun a ha => withPair_of_ne (fun heq => by
        rw [List.mem_singleton.mp ha] at heq
        exact hqh heq.symm) _
    · exact hspares.size.trans (show (s₁.pairs.set _ _).length = _ from List.length_set).ge
    · have hne : q ≠ a := fun heq => hout (by
        rw [← heq]
        exact List.mem_cons_self)
      exact (withPair_of_ne hne _).trans (hspares.cell a ha hout)

/-- What the two read-outs return: the elements, and the header before them. -/
theorem getQueueLst_run (h : QueueAt s q header cells) :
    getQueueLst (.pair q) s = (.ok (linkTo cells), s) ∧
      s.IsList (linkTo cells) (cells.map (·.2)) :=
  ⟨primCdar_run h.queue h.linked.1, h.linked.2.isList⟩

theorem getAllLst_run (h : QueueAt s q header cells) :
    getAllLst (.pair q) s = (.ok (.pair header.1), s) ∧
      s.IsList (.pair header.1) (header.2 :: cells.map (·.2)) :=
  ⟨primCar_run h.queue, h.linked.isList⟩

end Queues

/-! ## Runs over several queues -/

/-- An operation on the queues that a program has made, by their numbers. -/
inductive QueueOp where
  | make (x : Value)
  | enqueue (i : ℕ) (x : Value)
  | dequeue (i : ℕ)

/-- What an operation returns; a queue that is not there is nobody's. -/
inductive QueueAnswer where
  | queue
  | value (v : Value)
  | refused
  | none
  deriving DecidableEq

/-- The queues of a program, and the pairs. -/
abbrev QueueState (X : Type) := List Value × Data X

/-- One operation. An error ends it, and the program goes on. -/
def QueueOp.exec : QueueOp → QueueState X → QueueAnswer × QueueState X
  | make x, (qs, s) =>
    match makeQueue x s with
    | (.ok q, s) => (.queue, qs ++ [q], s)
    | (.error _, s) => (.refused, qs, s)
  | enqueue i x, (qs, s) =>
    match qs[i]? with
    | .none => (.none, qs, s)
    | some q =>
      match enQueue q x s with
      | (.ok _, s) => (.queue, qs, s)
      | (.error _, s) => (.refused, qs, s)
  | dequeue i, (qs, s) =>
    match qs[i]? with
    | .none => (.none, qs, s)
    | some q =>
      match deQueue q s with
      | (.ok v, s) => (.value v, qs, s)
      | (.error _, s) => (.refused, qs, s)

/-- One operation after another, and what each answered. -/
def runQueues : List QueueOp → QueueState X → List QueueAnswer × QueueState X
  | [], st => ([], st)
  | op :: ops, st =>
    let (a, st) := op.exec st
    let (as, st) := runQueues ops st
    (a :: as, st)

/-- **The queues as they are meant**: a header, and the elements in order. -/
abbrev Fifos := List (Value × List Value)

/-- What an operation answers, and what it makes of the queues. -/
def QueueOp.onFifos : QueueOp → Fifos → QueueAnswer × Fifos
  | make x, fs => (.queue, fs ++ [(x, [])])
  | enqueue i x, fs =>
    match fs[i]? with
    | .none => (.none, fs)
    | some (header, xs) => (.queue, fs.set i (header, xs ++ [x]))
  | dequeue i, fs =>
    match fs[i]? with
    | .none => (.none, fs)
    | some (_, []) => (.refused, fs)
    | some (header, x :: xs) => (.value x, fs.set i (header, xs))

/-- The same on the queues as they are meant. -/
def runFifos : List QueueOp → Fifos → List QueueAnswer × Fifos
  | [], fs => ([], fs)
  | op :: ops, fs =>
    let (a, fs) := op.onFifos fs
    let (as, fs) := runFifos ops fs
    (a :: as, fs)

/-! ## Queues side by side -/

/-- A queue of a program: its address, its header and its cells. -/
structure Row where
  queue : ℕ
  header : QueueCell
  cells : List QueueCell

/-- The pairs a queue consists of. -/
def Row.footprint (r : Row) : List ℕ := SystemLib.footprint r.queue (r.header :: r.cells)

/-- Its header and its elements. -/
def Row.fifo (r : Row) : Value × List Value := (r.header.2, r.cells.map (·.2))

/-- The queue is there. -/
def Row.At (r : Row) (s : Data X) : Prop := QueueAt s r.queue r.header r.cells

/-- How a queue lies in the pairs. -/
def rowLayout (X : Type) : Layout (pairCells X) Row where
  footprint := Row.footprint
  At := Row.At
  lt_size h _ ha := QueueAt.lt_length h ha
  mono h hs := QueueAt.mono h hs

/-- **The queues are there, each on pairs of its own.** -/
structure QueuesAt (rows : List Row) (st : QueueState X) : Prop where
  handles : st.1 = rows.map fun r => .pair r.queue
  rows : Apart (rowLayout X) rows st.2

namespace QueuesAt

variable {rows : List Row} {qs : List Value} {s s' : Data X} {i : ℕ} {r r' : Row}

theorem getElem?_handle (h : QueuesAt rows (qs, s)) (hr : rows[i]? = some r) :
    qs[i]? = some (.pair r.queue) := by
  rw [show qs = _ from h.handles, List.getElem?_map, hr]
  rfl

theorem getElem?_none (h : QueuesAt rows (qs, s)) (hr : rows[i]? = none) : qs[i]? = none := by
  rw [show qs = _ from h.handles, List.getElem?_map, hr]
  rfl

/-- **One queue changes**, and takes no pairs but new ones. -/
theorem set (h : QueuesAt rows (qs, s)) (hr : rows[i]? = some r) (hr' : r'.At s')
    (hqueue : r'.queue = r.queue) (hs : Spares (pairCells X) r.footprint s s')
    (hfoot : ∀ a ∈ r'.footprint, a ∈ r.footprint ∨ s.pairs.length ≤ a) :
    QueuesAt (rows.set i r') (qs, s') := by
  have hlt : i < rows.length := (List.getElem?_eq_some_iff.mp hr).1
  have hget : rows.set i r = rows := by
    rw [← (List.getElem?_eq_some_iff.mp hr).2, List.set_getElem_self hlt]
  refine ⟨?_, h.rows.set hr hr' hs hfoot⟩
  rw [show qs = _ from h.handles, List.map_set, hqueue]
  exact (congrArg _ hget).symm.trans List.map_set

/-- **A queue is made** beside the queues there are. -/
theorem snoc (h : QueuesAt rows (qs, s)) (hr : r.At s') (hs : Spares (pairCells X) [] s s')
    (hfoot : ∀ a ∈ r.footprint, s.pairs.length ≤ a) :
    QueuesAt (rows ++ [r]) (qs ++ [.pair r.queue], s') := by
  refine ⟨?_, h.rows.snoc hr hs hfoot⟩
  rw [show qs = _ from h.handles, List.map_append]
  rfl

/-- **An operation** answers as the queues are meant, and keeps them so. -/
theorem exec (h : QueuesAt rows (qs, s)) (op : QueueOp) :
    ∃ rows' qs' s', op.exec (qs, s) = ((op.onFifos (rows.map Row.fifo)).1, qs', s') ∧
      QueuesAt rows' (qs', s') ∧ rows'.map Row.fifo = (op.onFifos (rows.map Row.fifo)).2 := by
  cases op with
  | make x =>
    obtain ⟨s', hrun, hat, hs⟩ := makeQueue_run x s
    refine ⟨rows ++ [⟨s.pairs.length + 1, (s.pairs.length, x), []⟩], _, s', ?_,
      h.snoc (r := ⟨s.pairs.length + 1, (s.pairs.length, x), []⟩) hat hs ?_, ?_⟩
    · simp only [QueueOp.exec, hrun]
      rfl
    · intro a ha
      rcases List.mem_cons.mp ha with rfl | ha
      · exact Nat.le_succ _
      · rw [List.mem_singleton.mp ha]
    · rw [List.map_append]
      rfl
  | enqueue i x =>
    simp only [QueueOp.exec, QueueOp.onFifos, List.getElem?_map]
    cases hr : rows[i]? with
    | none =>
      rw [h.getElem?_none hr]
      exact ⟨rows, qs, s, rfl, h, rfl⟩
    | some r =>
      rw [h.getElem?_handle hr]
      obtain ⟨s', hrun, hat, hs⟩ := enQueue_run (h.rows.holds hr) x
      refine ⟨rows.set i ⟨r.queue, r.header, r.cells ++ [(s.pairs.length, x)]⟩, qs, s', ?_,
        h.set hr hat rfl hs ?_, ?_⟩
      · dsimp only
        rw [hrun]
        rfl
      · intro a ha
        rcases List.mem_cons.mp ha with rfl | ha
        · exact .inl List.mem_cons_self
        · rw [← List.cons_append, List.map_append] at ha
          rcases List.mem_append.mp ha with ha | ha
          · exact .inl (List.mem_cons_of_mem _ ha)
          · rw [List.mem_singleton.mp ha]
            exact .inr (Nat.le_refl _)
      · rw [List.map_set]
        show List.set _ _ (_, List.map _ (r.cells ++ [_])) = _
        rw [List.map_append]
        rfl
  | dequeue i =>
    simp only [QueueOp.exec, QueueOp.onFifos, List.getElem?_map]
    cases hr : rows[i]? with
    | none =>
      rw [h.getElem?_none hr]
      exact ⟨rows, qs, s, rfl, h, rfl⟩
    | some r =>
      rw [h.getElem?_handle hr]
      obtain ⟨q, header, cells⟩ := r
      cases cells with
      | nil =>
        have hrun := deQueue_empty (h.rows.holds hr)
        refine ⟨rows, qs, s, ?_, h, rfl⟩
        dsimp only
        rw [hrun]
        rfl
      | cons c cells =>
        obtain ⟨s', hrun, hat, hs⟩ := deQueue_run (h.rows.holds hr)
        refine ⟨rows.set i ⟨q, header, cells⟩, qs, s', ?_, h.set hr hat rfl hs fun a ha => ?_, ?_⟩
        · dsimp only
          rw [hrun]
          rfl
        · rcases List.mem_cons.mp ha with rfl | ha
          · exact .inl List.mem_cons_self
          · refine .inl (List.mem_cons_of_mem _ ?_)
            rcases List.mem_cons.mp ha with rfl | ha
            · exact List.mem_cons_self
            · exact List.mem_cons_of_mem _ (List.mem_cons_of_mem _ ha)
        · rw [List.map_set]
          rfl

end QueuesAt

/-- **And so does a run.** -/
theorem QueuesAt.run {rows : List Row} {qs : List Value} {s : Data X} (h : QueuesAt rows (qs, s))
    (ops : List QueueOp) :
    ∃ rows' qs' s', runQueues ops (qs, s) =
        ((runFifos ops (rows.map Row.fifo)).1, qs', s') ∧
      QueuesAt rows' (qs', s') ∧ rows'.map Row.fifo = (runFifos ops (rows.map Row.fifo)).2 := by
  induction ops generalizing rows qs s with
  | nil => exact ⟨rows, qs, s, rfl, h, rfl⟩
  | cons op ops ih =>
    obtain ⟨rows₁, qs₁, s₁, hexec, h₁, hfifo₁⟩ := h.exec op
    obtain ⟨rows₂, qs₂, s₂, hrun, h₂, hfifo₂⟩ := ih h₁
    rw [hfifo₁] at hrun hfifo₂
    refine ⟨rows₂, qs₂, s₂, ?_, h₂, ?_⟩
    · rw [runQueues, runFifos, hexec]
      dsimp only
      rw [hrun]
    · rw [hfifo₂, runFifos]

/-- **Queues are first in, first out.** Any run of operations on any number of
queues, from any pairs, answers as the queues are meant: a dequeued value is
the first that was enqueued of those left, an empty queue refuses and loses
nothing, and no queue is touched by what is done to another. Afterwards the
read-outs of every queue are the lists of its elements, without and with the
header. -/
theorem queues_fifo (ops : List QueueOp) (s : Data X) :
    ∃ qs s', runQueues ops ([], s) = ((runFifos ops []).1, qs, s') ∧
      qs.length = (runFifos ops []).2.length ∧
      ∀ (i : ℕ) (header : Value) (xs : List Value),
        (runFifos ops []).2[i]? = some (header, xs) →
        ∃ q lst all, qs[i]? = some q ∧
          getQueueLst q s' = (.ok lst, s') ∧ s'.IsList lst xs ∧
          getAllLst q s' = (.ok all, s') ∧ s'.IsList all (header :: xs) := by
  have hstart : QueuesAt [] (([] : List Value), s) :=
    ⟨rfl, .nil s⟩
  obtain ⟨rows, qs, s', hrun, h, hfifo⟩ := hstart.run ops
  rw [List.map_nil] at hrun hfifo
  refine ⟨qs, s', hrun, ?_, fun i header xs hi => ?_⟩
  · rw [← hfifo, show qs = _ from h.handles, List.length_map, List.length_map]
  · rw [← hfifo, List.getElem?_map] at hi
    obtain ⟨r, hr, hfifo⟩ := Option.map_eq_some_iff.mp hi
    cases hfifo
    obtain ⟨hlst, hlist⟩ := getQueueLst_run (h.rows.holds hr)
    obtain ⟨hall, hlist'⟩ := getAllLst_run (h.rows.holds hr)
    exact ⟨_, _, _, h.getElem?_handle hr, hlst, hlist, hall, hlist'⟩

/-- A queue that has been emptied takes elements again. -/
example : (runFifos [.make .nil, .enqueue 0 (.int 1), .make .eof, .dequeue 0, .dequeue 0,
    .enqueue 0 (.int 2), .dequeue 1, .dequeue 0] []).1 =
    [.queue, .queue, .queue, .value (.int 1), .refused, .queue, .refused, .value (.int 2)] := rfl

end SystemLib
