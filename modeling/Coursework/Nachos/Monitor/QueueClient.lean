import Coursework.Nachos.Monitor.Credit
import Coursework.Lib.Queue

/-!
# Clients that are blocking queues

What a client must do in one step of its own code to be a blocking first-in first-out
queue with one condition, and what follows for every interleaving: what was taken,
followed by what the queue holds, is what was put in; each thread returns what it
took; and no thread sleeps for an item that is there.
-/
namespace Coursework.Nachos.Monitor
open Finset

variable {Tid C K D I α : Type} [DecidableEq Tid] [DecidableEq C]

/-- What an onlooker sees of a queue: an item is linked into it, thread `t` takes an
item, and the call that took it returns. -/
inductive Moved (Tid α : Type) where
  | put (x : α)
  | took (t : Tid) (x : α)
  | returned (t : Tid) (x : α)
  deriving DecidableEq

namespace Moved

def putOf : Moved Tid α → Option α
  | .put x => some x
  | _ => none

def tookOf : Moved Tid α → Option α
  | .took _ x => some x
  | _ => none

def tookBy (t : Tid) : Moved Tid α → Option α
  | .took u x => if u = t then some x else none
  | _ => none

def returnedBy (t : Tid) : Moved Tid α → Option α
  | .returned u x => if u = t then some x else none
  | _ => none

end Moved

/-- The item that a call takes with it: a `Release` that goes on with a result. -/
def Call.takes (ret : K → Option α) (k : K) : Call C → Option α
  | .release => ret k
  | _ => none

/-- What the code at `k` moves with a call that goes on at `k'`. -/
def callMoved (puts ret : K → Option α) (k k' : K) (t : Tid) (x : Call C) : List (Moved Tid α) :=
  (puts k).toList.map .put ++ (x.takes ret k').toList.map (.took t)

/-- `puts k` is the item that the code at `k` links, `ret k` the result at `k`. -/
def State.moved (code : Code C K D I) (puts ret : K → Option α) (s : State Tid C K D)
    (e : Event Tid I) : List (Moved Tid α) :=
  match (s.thread e.tid).pc with
  | .client k =>
    match code k s.data e.input with
    | some (x, k', _) => callMoved puts ret k k' e.tid x
    | none => []
  | .releaseV (.client k) => (ret k).toList.map (.returned e.tid)
  | _ => []

/-- A result that a thread holds while it releases the lock. -/
def Thread.inHand (ret : K → Option α) (x : Thread C K) : List α :=
  match x.pc with
  | .releaseV (.client k) => (ret k).toList
  | _ => []

/-- One step of the client's code at the locations `Q`, on data that hold the items `xs`. -/
def QueueClient (code : Code C K D I) (Q : K → Prop) (Contents : D → List α → Prop)
    (puts ret : K → Option α) (c : C) (w : K → ℕ) : Prop :=
  ∀ ⦃k d i x k' d' xs⦄, Q k → code k d i = some (x, k', d') → Contents d xs →
    Q k' ∧ (x = .wait c → 1 ≤ w k') ∧
      ∃ xs', Contents d' xs' ∧ xs ++ (puts k).toList = (x.takes ret k').toList ++ xs' ∧
        (xs' = [] ∨ (puts k).toList.length + w k ≤
          (x.takes ret k').toList.length + x.credit c w k')

variable {code : Code C K D I} {Q : K → Prop} {Contents : D → List α → Prop}
  {puts ret : K → Option α} {c : C} {w : K → ℕ} {d0 : D → Prop} {k0 : K}
  {s s' : State Tid C K D} {e : Event Tid I} {h : List (Moved Tid α)} {t : Tid}

/-- The size of a queue is its number of items. -/
theorem QueueClient.toPays (hq : QueueClient code Q Contents puts ret c w) :
    Pays code Q (fun d n => ∃ xs, Contents d xs ∧ xs.length = n) c w := by
  rintro k d i x k' d' _ hk hcode ⟨xs, hxs, rfl⟩
  obtain ⟨hk', hretest, xs', hxs', heq, hpay⟩ := hq hk hcode hxs
  refine ⟨hk', hretest, _, ⟨xs', hxs', rfl⟩, ?_⟩
  have hlen := congrArg List.length heq
  simp only [List.length_append] at hlen
  rcases hpay with rfl | hpay
  · exact .inl rfl
  · right
    omega

/-- What was taken, then what is inside, is what was put in. -/
def Fifo (Contents : D → List α → Prop) (s : State Tid C K D) (h : List (Moved Tid α)) : Prop :=
  ∃ xs, Contents s.data xs ∧ h.filterMap Moved.tookOf ++ xs = h.filterMap Moved.putOf

omit [DecidableEq Tid] [DecidableEq C] in
theorem Fifo.idle (hi : Fifo Contents s h) (hdata : s'.data = s.data) {l : List (Moved Tid α)}
    (htook : l.filterMap Moved.tookOf = []) (hput : l.filterMap Moved.putOf = []) :
    Fifo Contents s' (h ++ l) := by
  rcases hi with ⟨xs, hxs, heq⟩
  exact ⟨xs, hdata ▸ hxs, by simpa [htook, hput] using heq⟩

section CallMoved
variable (puts ret) (k k' : K) (t u : Tid) (x : Call C)
omit [DecidableEq C]

omit [DecidableEq Tid] in
theorem tookOf_callMoved :
    (callMoved puts ret k k' t x).filterMap Moved.tookOf = (x.takes ret k').toList := by
  rw [callMoved, List.filterMap_append, filterMap_map_of_none fun _ => rfl,
    filterMap_map_of_some (f := Moved.took t) (g := Moved.tookOf) fun _ => rfl, List.nil_append]

omit [DecidableEq Tid] in
theorem putOf_callMoved :
    (callMoved puts ret k k' t x).filterMap Moved.putOf = (puts k).toList := by
  rw [callMoved, List.filterMap_append,
    filterMap_map_of_some (f := Moved.put) (g := Moved.putOf) fun _ => rfl,
    filterMap_map_of_none fun _ => rfl, List.append_nil]

theorem tookBy_callMoved :
    (callMoved puts ret k k' t x).filterMap (Moved.tookBy u) =
      if t = u then (x.takes ret k').toList else [] := by
  rw [callMoved, List.filterMap_append, filterMap_map_of_none fun _ => rfl, List.nil_append]
  by_cases htu : t = u
  · rw [if_pos htu, filterMap_map_of_some fun _ => by simp [Moved.tookBy, htu]]
  · rw [if_neg htu, filterMap_map_of_none fun _ => by simp [Moved.tookBy, htu]]

theorem returnedBy_callMoved :
    (callMoved puts ret k k' t x).filterMap (Moved.returnedBy u) = [] := by
  rw [callMoved, List.filterMap_append, filterMap_map_of_none fun _ => rfl,
    filterMap_map_of_none fun _ => rfl, List.nil_append]

end CallMoved

omit [DecidableEq Tid] [DecidableEq C] in
theorem moved_client {k k' : K} {d : D} {x : Call C} (hpc : (s.thread e.tid).pc = .client k)
    (hcode : code k s.data e.input = some (x, k', d)) :
    s.moved code puts ret e = callMoved puts ret k k' e.tid x := by
  simp only [State.moved, hpc, hcode]

theorem Fifo.step (hq : QueueClient code Q Contents puts ret c w)
    (hloc : ∀ u, Q (s.thread u).pc.loc) (hi : Fifo Contents s h)
    (hs : State.Steps code s e s') :
    Fifo Contents s' (h ++ s.moved code puts ret e) := by
  cases hs with
  | @client k k' d x hpc hcode =>
    rcases hi with ⟨xs, hxs, heq⟩
    have hk : Q k := by simpa [hpc, Pc.loc] using hloc e.tid
    obtain ⟨-, -, xs', hxs', hmove, -⟩ := hq hk hcode hxs
    refine ⟨xs', by rwa [State.call_data], ?_⟩
    rw [moved_client hpc hcode, List.filterMap_append, List.filterMap_append, tookOf_callMoved,
      putOf_callMoved]
    exact fifo_step heq hmove
  | @releaseV a hpc =>
    rw [State.moved, hpc]
    cases a with
    | waitP c k => exact hi.idle rfl rfl rfl
    | client k =>
      exact hi.idle rfl (filterMap_map_of_none (fun _ => rfl) _)
        (filterMap_map_of_none (fun _ => rfl) _)
  | acquireSleep hpc | acquirePass hpc | acquireSet hpc | waitSleep hpc | waitPass hpc
  | waitInc hpc | signalV hpc | signalDec hpc | bcastExit hpc | bcastLoop hpc | bcastV hpc
  | bcastDec hpc =>
    rw [State.moved, hpc]
    exact hi.idle rfl rfl rfl

/-- A thread has returned what it took, but for the item in its hand. -/
def Delivered (ret : K → Option α) (s : State Tid C K D) (h : List (Moved Tid α)) (t : Tid) :
    Prop :=
  h.filterMap (Moved.tookBy t) = h.filterMap (Moved.returnedBy t) ++ (s.thread t).inHand ret

omit [DecidableEq C] in
/-- A step of thread `u` that takes `T` and returns `R`. -/
theorem Delivered.act {u : Tid} {x : Thread C K} {T R : List α} {l : List (Moved Tid α)}
    (hi : Delivered ret s h t) (ht : s'.thread = Function.update s.thread u x)
    (htook : l.filterMap (Moved.tookBy t) = if u = t then T else [])
    (hret : l.filterMap (Moved.returnedBy t) = if u = t then R else [])
    (hx : (s.thread u).inHand ret ++ T = R ++ x.inHand ret) : Delivered ret s' (h ++ l) t := by
  rw [Delivered] at hi ⊢
  rw [List.filterMap_append, List.filterMap_append, htook, hret, ht, hi]
  by_cases hut : u = t
  · subst hut
    rw [if_pos rfl, if_pos rfl, Function.update_self, List.append_assoc, hx, List.append_assoc]
  · rw [if_neg hut, if_neg hut, Function.update_of_ne (Ne.symm hut), List.append_nil,
      List.append_nil]

theorem returned_tookBy (u : Tid) (l : List α) :
    (l.map (Moved.returned u)).filterMap (Moved.tookBy t) = if u = t then [] else [] := by
  rw [filterMap_map_of_none fun _ => rfl, ite_self]

theorem returned_returnedBy (u : Tid) (l : List α) :
    (l.map (Moved.returned u)).filterMap (Moved.returnedBy t) = if u = t then l else [] := by
  by_cases hut : u = t
  · rw [if_pos hut, filterMap_map_of_some fun _ => by simp [Moved.returnedBy, hut]]
  · rw [if_neg hut, filterMap_map_of_none fun _ => by simp [Moved.returnedBy, hut]]

theorem Delivered.step (hi : Delivered ret s h t) (hs : State.Steps code s e s') :
    Delivered ret s' (h ++ s.moved code puts ret e) t := by
  cases hs with
  | @client k k' d x hpc hcode =>
    rw [moved_client hpc hcode]
    refine hi.act (State.call_thread (s := { s with data := d }) (t := e.tid) (k := k') x)
      (tookBy_callMoved puts ret k k' e.tid t x) (R := []) ?_ ?_
    · rw [returnedBy_callMoved, ite_self]
    · cases x <;> simp [Thread.inHand, hpc, Call.takes, Call.start]
  | @releaseV a hpc =>
    rw [State.moved, hpc]
    cases a with
    | waitP c k =>
      exact hi.act (T := []) (R := []) rfl (ite_self _).symm (ite_self _).symm
        (by simp [Thread.inHand, hpc, After.pc])
    | client k =>
      exact hi.act rfl (returned_tookBy e.tid _) (returned_returnedBy e.tid _)
        (by simp [Thread.inHand, hpc, After.pc])
  | acquireSleep hpc | acquirePass hpc | acquireSet hpc | waitSleep hpc | waitPass hpc
  | waitInc hpc | signalV hpc | signalDec hpc | bcastExit hpc | bcastLoop hpc | bcastV hpc
  | bcastDec hpc =>
    rw [State.moved, hpc]
    exact hi.act (u := e.tid) (T := []) (R := []) rfl (ite_self _).symm (ite_self _).symm
      (by simp [Thread.inHand, hpc])

/-! ### What one thread puts in and gets back -/

omit [DecidableEq Tid] [DecidableEq C] in
theorem putOf_moved (hkernel : ∀ k, (s.thread e.tid).pc ≠ .client k) :
    (s.moved code puts ret e).filterMap Moved.putOf = [] := by
  rw [State.moved]
  split
  case h_1 k hpc => exact absurd hpc (hkernel k)
  case h_2 k hpc => exact filterMap_map_of_none (fun _ => rfl) _
  case h_3 => rfl

/-- An item that a thread comes with stays with it until it is put in. -/
theorem puts_step (hs : State.Steps code s e s')
    (hcode : ∀ k x k' d, (s.thread e.tid).pc = .client k →
      code k s.data e.input = some (x, k', d) → puts k' = none) :
    (s.moved code puts ret e).filterMap Moved.putOf ++ (puts (s'.locs e.tid)).toList =
      (puts (s.locs e.tid)).toList := by
  rcases State.client_or_kernel hs with ⟨k, x, k', d, hpc, hc, rfl⟩ | hkernel
  · rw [moved_client hpc hc, putOf_callMoved, State.locs_call, Function.update_self,
      hcode k x k' d hpc hc, State.locs_client hpc]
    exact List.append_nil _
  · rw [putOf_moved hkernel, (State.kernel_keep hkernel hs).2]
    rfl

omit [DecidableEq C] in
/-- A thread gets back what it has in its hand when it releases the lock. -/
theorem returnedBy_moved : (s.moved code puts ret e).filterMap (Moved.returnedBy t) =
    if e.tid = t then (s.thread e.tid).inHand ret else [] := by
  have hnil : (if e.tid = t then [] else []) = ([] : List α) := ite_self _
  rw [State.moved, Thread.inHand]
  cases hpc : (s.thread e.tid).pc with
  | client k =>
    simp only [hnil]
    cases code k s.data e.input with
    | some p => exact returnedBy_callMoved puts ret _ _ _ _ _
    | none => rfl
  | releaseV a =>
    cases a with
    | client k => exact returned_returnedBy e.tid _
    | waitP c k => exact hnil.symm
  | _ => exact hnil.symm

section Reach
variable {ok : State Tid C K D × List (Moved Tid α) → Event Tid I → Prop}
  {p : State Tid C K D × List (Moved Tid α)}

theorem delivered (hr : ((machine code d0 k0).observe (State.moved code puts ret)).Reach ok p)
    (t : Tid) : Delivered ret p.1 p.2 t := by
  apply hr.invariant (fun p => Delivered ret p.1 p.2 t)
  · rintro p ⟨hs, hnil⟩
    simp [Delivered, hnil, hs.thread t, Thread.inHand]
  · intro p e p' _ hi _ hs
    obtain ⟨hstep, hseen⟩ := Machine.observe_step.mp hs
    rw [hseen]
    exact hi.step (State.steps_of_step hstep)

/-- The queue law, and that the code stays at the locations `Q`. -/
theorem fifo (hq : QueueClient code Q Contents puts ret c w) (h0 : ∀ d, d0 d → Contents d [])
    (hk0 : Q k0) (hr : ((machine code d0 k0).observe (State.moved code puts ret)).Reach ok p) :
    (∀ u, Q (p.1.thread u).pc.loc) ∧ Fifo Contents p.1 p.2 := by
  apply hr.invariant (fun p => (∀ u, Q (p.1.thread u).pc.loc) ∧ Fifo Contents p.1 p.2)
  · rintro p ⟨hs, hnil⟩
    exact ⟨fun u => by rwa [hs.thread u], [], h0 _ hs.data, by simp [hnil]⟩
  · rintro p e p' _ ⟨hloc, hi⟩ _ hs
    obtain ⟨hstep, hseen⟩ := Machine.observe_step.mp hs
    have hsteps := State.steps_of_step hstep
    rw [hseen]
    refine ⟨State.loc_step hloc (fun k x k' d _ hcode hk => ?_) hsteps, hi.step hq hloc hsteps⟩
    rcases hi with ⟨xs, hxs, -⟩
    exact (hq hk hcode hxs).1

variable [Fintype Tid] {outside : K → Bool}

/-- With everybody asleep or outside and the lock free, a sleeper means an empty queue. -/
theorem queue_empty_of_asleep [Subsingleton C]
    (hq : QueueClient code Q Contents puts ret c w) (h0 : ∀ d, d0 d → Contents d [])
    (hk0 : Q k0) (hout : ∀ k, outside k = true → w k = 0)
    {ok : State Tid C K D → Event Tid I → Prop} (hr : (machine code d0 k0).Reach ok s)
    (hquiet : s.Quiet outside) (hfree : 0 < s.lock.sema.value) (ht : s.Asleep t) :
    Contents s.data [] := by
  have hsleep : (s.cond c).sema.queue ≠ [] := by
    rcases ht with hin | ⟨x, hin⟩
    · rw [queue_eq_nil hr hquiet hfree] at hin
      cases hin
    · obtain rfl := Subsingleton.elim x c
      exact List.ne_nil_of_mem hin
  obtain ⟨xs, hxs, hlen⟩ := no_stranded hq.toPays (fun d hd => ⟨[], h0 d hd, rfl⟩) hk0 hout hr
    hquiet hfree hsleep
  rwa [List.length_eq_zero_iff.mp hlen] at hxs

end Reach
end Coursework.Nachos.Monitor
