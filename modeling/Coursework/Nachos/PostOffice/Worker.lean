import Coursework.Nachos.PostOffice.Steps

/-!
# From the socket to the mailboxes

`messageAvailable` has one unit for each packet in `inbox` that nobody has taken, so there is never
more than one, and `CheckPktAvail` writes to `inbox` only after the postal worker has emptied it.
What has been put into the mailboxes, what the postal worker holds and what is in `inbox` are the
letters read from the socket.
-/
namespace Coursework.Nachos.PostOffice
open Monitor (Moved)

variable {Tid Addr : Type} [DecidableEq Tid] [DecidableEq Addr]

/-- The letters put into mailbox `b`. -/
def puts (b : ℤ) (h : List (Seen Tid)) : List Letter :=
  ((h.filterMap (Seen.boxOf b)).filterMap Moved.putOf).map Mail.letter

/-- The letters for mailbox `b` that were read from the socket. -/
def reads (b : ℤ) (h : List (Seen Tid)) : List Letter :=
  ((h.filterMap Seen.readOf).map packetLetter).filter (·.box = b)

/-- The letters that thread `t` has got from `Remove`. -/
def returned (t : Tid) (b : ℤ) (h : List (Seen Tid)) : List Letter :=
  ((h.filterMap (Seen.boxOf b)).filterMap (Moved.returnedBy (some t))).map Mail.letter

/-- The postal worker has a unit of `messageAvailable`. -/
def Worker.took : Worker → ℤ
  | .receive => 1
  | _ => 0

section History
variable {b : ℤ} {t : Tid} {h l : List (Seen Tid)}

omit [DecidableEq Tid] in
theorem puts_append : puts b (h ++ l) = puts b h ++ puts b l := by
  simp only [puts, List.filterMap_append, List.map_append]

omit [DecidableEq Tid] in
theorem reads_append : reads b (h ++ l) = reads b h ++ reads b l := by
  simp only [reads, List.filterMap_append, List.map_append, List.filter_append]

theorem returned_append : returned t b (h ++ l) = returned t b h ++ returned t b l := by
  simp only [returned, List.filterMap_append, List.map_append]

end History

namespace Node

/-- The letter that the postal worker is going to put into mailbox `b`. -/
def linking (n : Node Tid Addr) (b : ℤ) : List Letter :=
  ((n.boxes b).locs none).puts.toList.map Mail.letter

/-- The letter in `inbox`. -/
def held (n : Node Tid Addr) : List Letter :=
  if n.network.inHdr.length = 0 then [] else [contents n.network.inHdr n.network.inbox]

/-- Threads are in a mailbox only in a call, and only the postal worker calls `Append`. -/
structure Threads (n : Node Tid Addr) : Prop where
  home : ∀ b t, n.inBox t = some b ∨ SynchList.Outside (n.boxes b) t
  readers : ∀ b t, ((n.boxes b).locs (some t)).puts = none

/-- The counter is in step with `inbox`. -/
structure Counted (numBoxes : ℤ) (n : Node Tid Addr) : Prop where
  nonneg : 0 ≤ n.messageAvailable.value
  count : n.messageAvailable.value + n.worker.took =
    if n.network.inHdr.length = 0 then 0 else 1
  legal : n.network.inHdr.length ≠ 0 → Legal numBoxes n.network.inHdr n.network.inbox

/-- No letter is lost, doubled or changed between the socket and the mailboxes. -/
structure Carried (numBoxes : ℤ) (ident : NetworkAddress) (n : Node Tid Addr)
    (h : List (Seen Tid)) : Prop where
  flow : ∀ b, puts b h ++ n.linking b ++ n.held.filter (·.box = b) = reads b h
  legal : ∀ packet ∈ h.filterMap Seen.readOf, LegalPacket numBoxes ident packet
  received : ∀ t b, h.filterMap (Seen.receivedOf t b) = returned t b h

variable {machines : List NetworkAddress} {numBoxes : ℤ} {ident : NetworkAddress}
  {n n' : Node Tid Addr} {b b' : ℤ} {h l : List (Seen Tid)} {m : MailBox Tid Addr}
  {i : Monitor.Event (Option Tid) (SynchList.Input Addr Mail)} {e : Option Mem × Act Tid Addr}

/-! ### Steps in a mailbox -/

theorem thread_of_ne (hm : (n.boxes b').step SynchList.code i = some m) {t : Option Tid}
    (ht : t ≠ i.tid) : m.thread t = (n.boxes b').thread t := by
  obtain ⟨x, hx⟩ := Monitor.State.thread_step (Monitor.State.steps_of_step hm)
  rw [hx, Function.update_of_ne ht]

theorem locs_of_ne (hm : (n.boxes b').step SynchList.code i = some m) {t : Option Tid}
    (ht : t ≠ i.tid) : m.locs t = (n.boxes b').locs t := by
  rw [Monitor.State.locs, thread_of_ne hm ht]
  rfl

/-- What the thread puts in and what it still has is what it had. -/
theorem puts_moved (hm : (n.boxes b').step SynchList.code i = some m)
    (hin : ∀ item, i.input ≠ .append item) :
    ((n.boxes b').moved SynchList.code SynchList.Loc.puts SynchList.Loc.ret i).filterMap
        Moved.putOf ++ (m.locs i.tid).puts.toList =
      ((n.boxes b').locs i.tid).puts.toList := by
  apply Monitor.puts_step (Monitor.State.steps_of_step hm)
  intro k x k' d _ hcode
  exact SynchList.puts_of_code hcode hin

omit [DecidableEq Tid] [DecidableEq Addr] in
theorem inBox_of_ne_none (hrecv : n'.receiving = n.receiving) {t : Option Tid} (ht : t ≠ none) :
    n'.inBox t = n.inBox t := by
  cases t with
  | none => exact absurd rfl ht
  | some t => exact congrFun hrecv t

omit [DecidableEq Addr] in
theorem inBox_of_ne {t : Tid} {b : Option ℤ} (hworker : n'.worker = n.worker)
    (hrecv : n'.receiving = Function.update n.receiving t b) {u : Option Tid} (hu : u ≠ some t) :
    n'.inBox u = n.inBox u := by
  cases u with
  | none => rw [inBox, inBox, hworker]
  | some u =>
    have hne : u ≠ t := fun heq => hu (congrArg some heq)
    rw [inBox, inBox, hrecv, Function.update_of_ne hne]

omit [DecidableEq Tid] [DecidableEq Addr] in
theorem inBox_congr (hrecv : n'.receiving = n.receiving) (hworker : n'.inBox none = n.inBox none) :
    n'.inBox = n.inBox := by
  funext t
  by_cases ht : t = none
  · rw [ht, hworker]
  · exact inBox_of_ne_none hrecv ht

theorem Threads.moveBox (ht : n.Threads) (hm : (n.boxes b').step SynchList.code i = some m)
    (hboxes : n'.boxes = Function.update n.boxes b' m)
    (hin : ∀ t, i.tid = some t → ∀ item, i.input ≠ .append item)
    (hother : ∀ t ≠ i.tid, n'.inBox t = n.inBox t)
    (hself : n'.inBox i.tid = some b' ∨ SynchList.Outside m i.tid)
    (hcame : n.inBox i.tid = none ∨ n.inBox i.tid = some b') : n'.Threads where
  home b t := by
    have hhome := ht.home b t
    rw [hboxes]
    by_cases hti : t = i.tid
    · subst hti
      by_cases hb : b = b'
      · subst hb
        rwa [Function.update_self]
      · rw [Function.update_of_ne hb]
        right
        rcases hhome with hhome | hhome
        · rcases hcame with hcame | hcame
          · rw [hcame] at hhome
            cases hhome
          · rw [hcame] at hhome
            exact absurd (Option.some.inj hhome).symm hb
        · exact hhome
    · rw [hother t hti]
      by_cases hb : b = b'
      · subst hb
        rw [Function.update_self, SynchList.Outside, thread_of_ne hm hti]
        exact hhome
      · rwa [Function.update_of_ne hb]
  readers b t := by
    have hreader := ht.readers b t
    rw [hboxes]
    by_cases hb : b = b'
    · subst hb
      rw [Function.update_self]
      by_cases hti : some t = i.tid
      · have hputs := puts_moved hm (hin t hti.symm)
        rw [← hti, hreader] at hputs
        exact Option.toList_eq_nil_iff.mp (List.append_eq_nil_iff.mp hputs).2
      · rwa [locs_of_ne hm hti]
    · rwa [Function.update_of_ne hb]

/-- A step that is not a call of `Append` keeps what is in or on its way into a mailbox. -/
theorem Threads.puts_movedIn (ht : n.Threads)
    (hm : (n.boxes b').step SynchList.code i = some m)
    (hboxes : n'.boxes = Function.update n.boxes b' m)
    (hin : ∀ item, i.input ≠ .append item) (b : ℤ) :
    puts b (n.movedIn b' i) ++ n'.linking b = n.linking b := by
  have hputs := puts_moved hm hin
  rw [puts, boxOf_movedIn, linking, linking, hboxes]
  by_cases hb : b' = b
  · subst hb
    rw [if_pos rfl, Function.update_self, ← List.map_append]
    cases hi : i.tid with
    | none => rw [← hi, hputs]
    | some t =>
      have hnone : none ≠ i.tid := by
        rw [hi]
        simp
      rw [hi, ht.readers b' t] at hputs
      rw [(List.append_eq_nil_iff.mp hputs).1, locs_of_ne hm hnone]
      rfl
  · rw [if_neg hb, Function.update_of_ne (Ne.symm hb)]
    rfl

/-- What thread `t` gets back in this step. -/
theorem returned_movedIn (t : Tid) (b : ℤ) : returned t b (n.movedIn b' i) =
    if i.tid = some t ∧ b' = b then
      (((n.boxes b').thread i.tid).inHand SynchList.Loc.ret).map Mail.letter
    else [] := by
  rw [returned, boxOf_movedIn]
  by_cases hb : b' = b
  · rw [if_pos hb, Monitor.returnedBy_moved]
    by_cases hti : i.tid = some t
    · rw [if_pos hti, if_pos ⟨hti, hb⟩]
    · rw [if_neg hti, if_neg fun hand => hti hand.1]
      rfl
  · rw [if_neg hb, if_neg fun hand => hb hand.2]
    rfl

section
omit [DecidableEq Tid] [DecidableEq Addr]

/-- A thread has nothing in its hand unless it comes out of `Remove` with it. -/
theorem inHand_eq_nil {t : Option Tid}
    (hr : ∀ mail, n.returns b t ≠ some (.outside (some mail))) :
    ((n.boxes b).thread t).inHand SynchList.Loc.ret = [] := by
  rw [Monitor.Thread.inHand]
  split
  case h_1 k hpc =>
    have hk : n.returns b t = some k := by rw [returns, hpc]
    cases k with
    | outside ret =>
      cases ret with
      | some mail => exact absurd hk (hr mail)
      | none => rfl
    | _ => rfl
  case h_2 => rfl

theorem releaseV_of_returns {t : Option Tid} {k : SynchList.Loc Mail}
    (hr : n.returns b t = some k) : ((n.boxes b).thread t).pc = .releaseV (.client k) := by
  rw [returns] at hr
  split at hr
  case h_1 k' hpc =>
    cases hr
    exact hpc
  case h_2 => cases hr

theorem linking_eq_nil (ho : SynchList.Outside (n.boxes b) none) : n.linking b = [] := by
  obtain ⟨ret, hpc⟩ := ho
  rw [linking, Monitor.State.locs_client hpc]
  rfl

end

/-! ### The invariant -/

structure Inv (numBoxes : ℤ) (ident : NetworkAddress) (n : Node Tid Addr) (h : List (Seen Tid)) :
    Prop where
  threads : n.Threads
  counted : n.Counted numBoxes
  carried : n.Carried numBoxes ident h
  running : n.aborted = false

section
omit [DecidableEq Addr]

omit [DecidableEq Tid] in
/-- The postal worker finds a letter in `inbox`. -/
theorem Counted.full (hc : n.Counted numBoxes) (hw : n.worker = .receive) :
    n.network.inHdr.length ≠ 0 := by
  have hcount := hc.count
  have hnonneg := hc.nonneg
  intro hempty
  rw [hw, if_pos hempty] at hcount
  simp only [Worker.took] at hcount
  omega

omit [DecidableEq Tid] in
theorem Counted.keep (hc : n.Counted numBoxes) (hnet : n'.network = n.network)
    (hvalue : n'.messageAvailable.value + n'.worker.took =
      n.messageAvailable.value + n.worker.took)
    (hnonneg : 0 ≤ n'.messageAvailable.value) : n'.Counted numBoxes where
  nonneg := hnonneg
  count := by
    rw [hvalue, hnet]
    exact hc.count
  legal := by
    rw [hnet]
    exact hc.legal

/-- A step that moves no letter. -/
theorem Carried.keep (hc : n.Carried numBoxes ident h) (hnet : n'.network = n.network)
    (hputs : ∀ b, puts b l ++ n'.linking b = n.linking b)
    (hreads : l.filterMap Seen.readOf = [])
    (hreceived : ∀ t b, l.filterMap (Seen.receivedOf t b) = returned t b l) :
    n'.Carried numBoxes ident (h ++ l) where
  flow b := by
    have hread : reads b l = [] := by
      rw [reads, hreads]
      rfl
    have hheld : n'.held = n.held := by rw [held, held, hnet]
    rw [puts_append, reads_append, hread, hheld, List.append_nil, List.append_assoc (puts b h),
      hputs b]
    exact hc.flow b
  legal packet hp := by
    rw [List.filterMap_append, hreads, List.append_nil] at hp
    exact hc.legal packet hp
  received t b := by
    rw [List.filterMap_append, returned_append, hc.received, hreceived]

/-- A step outside the mailboxes. -/
theorem Inv.keep (hi : Inv numBoxes ident n h) (hboxes : n'.boxes = n.boxes)
    (hin : n'.inBox = n.inBox) (hnet : n'.network = n.network)
    (hvalue : n'.messageAvailable.value + n'.worker.took =
      n.messageAvailable.value + n.worker.took)
    (hnonneg : 0 ≤ n'.messageAvailable.value) (hrun : n'.aborted = n.aborted)
    (hbox : ∀ b, l.filterMap (Seen.boxOf b) = []) (hreads : l.filterMap Seen.readOf = [])
    (hreceived : ∀ t b, l.filterMap (Seen.receivedOf t b) = []) :
    Inv numBoxes ident n' (h ++ l) where
  threads := by
    constructor
    · rw [hboxes, hin]
      exact hi.threads.home
    · rw [hboxes]
      exact hi.threads.readers
  counted := hi.counted.keep hnet hvalue hnonneg
  carried := by
    apply hi.carried.keep hnet ?_ hreads
    · intro t b
      rw [hreceived, returned, hbox]
      rfl
    · intro b
      rw [puts, hbox, linking, linking, hboxes]
      rfl
  running := hrun.trans hi.running

end

/-- A step in a mailbox that is not a call of `Append`; `l` is what `Receive` hands out. -/
theorem Inv.moveBox (hi : Inv numBoxes ident n h)
    (hm : (n.boxes b').step SynchList.code i = some m)
    (hboxes : n'.boxes = Function.update n.boxes b' m)
    (hin : ∀ item, i.input ≠ .append item)
    (hother : ∀ t ≠ i.tid, n'.inBox t = n.inBox t)
    (hself : n'.inBox i.tid = some b' ∨ SynchList.Outside m i.tid)
    (hcame : n.inBox i.tid = none ∨ n.inBox i.tid = some b')
    (hnet : n'.network = n.network) (havail : n'.messageAvailable = n.messageAvailable)
    (hworker : n'.worker.took = n.worker.took) (hrun : n'.aborted = n.aborted)
    (hbox : ∀ b, l.filterMap (Seen.boxOf b) = []) (hreads : l.filterMap Seen.readOf = [])
    (hgot : ∀ t b, l.filterMap (Seen.receivedOf t b) = returned t b (n.movedIn b' i)) :
    Inv numBoxes ident n' (h ++ (n.movedIn b' i ++ l)) where
  threads := hi.threads.moveBox hm hboxes (fun _ _ => hin) hother hself hcame
  counted := by
    apply hi.counted.keep hnet
    · rw [havail, hworker]
    · rw [havail]
      exact hi.counted.nonneg
  carried := by
    have hnil (b : ℤ) : puts b l = [] := by
      rw [puts, hbox]
      rfl
    have hret (t : Tid) (b : ℤ) : returned t b l = [] := by
      rw [returned, hbox]
      rfl
    apply hi.carried.keep hnet
    · intro b
      rw [puts_append, hnil, List.append_nil]
      exact hi.threads.puts_movedIn hm hboxes hin b
    · rw [List.filterMap_append, hreads, List.append_nil]
      exact view_movedIn fun _ => rfl
    · intro t b
      rw [List.filterMap_append, view_movedIn fun _ => rfl, returned_append, hret, hgot,
        List.append_nil, List.nil_append]
  running := hrun.trans hi.running

/-- The same where `Receive` hands nothing out. -/
theorem Inv.moveBox_silent (hi : Inv numBoxes ident n h)
    (hm : (n.boxes b').step SynchList.code i = some m)
    (hboxes : n'.boxes = Function.update n.boxes b' m)
    (hin : ∀ item, i.input ≠ .append item)
    (hother : ∀ t ≠ i.tid, n'.inBox t = n.inBox t)
    (hself : n'.inBox i.tid = some b' ∨ SynchList.Outside m i.tid)
    (hcame : n.inBox i.tid = none ∨ n.inBox i.tid = some b')
    (hnet : n'.network = n.network) (havail : n'.messageAvailable = n.messageAvailable)
    (hworker : n'.worker.took = n.worker.took) (hrun : n'.aborted = n.aborted)
    (hgot : ∀ t, i.tid = some t →
      ((n.boxes b').thread i.tid).inHand SynchList.Loc.ret = []) :
    Inv numBoxes ident n' (h ++ n.movedIn b' i) := by
  rw [← List.append_nil (n.movedIn b' i)]
  apply hi.moveBox hm hboxes hin hother hself hcame hnet havail hworker hrun
  · exact fun _ => rfl
  · rfl
  · intro t b
    rw [returned_movedIn, List.filterMap_nil]
    by_cases hand : i.tid = some t ∧ b' = b
    · rw [if_pos hand, hgot t hand.1]
      rfl
    · rw [if_neg hand]

/-- The postal worker takes the letter out of `inbox` and comes to its mailbox with it. -/
theorem Inv.deliver {mem : Mem} {mail : Mail} (hi : Inv numBoxes ident n h)
    (hw : n.worker = .receive)
    (hsort : sort numBoxes n.network.inHdr (n.network.receive n.buffer).2.1 mem = some (b', mail))
    (hm : (n.boxes b').step SynchList.code ⟨none, .append mail⟩ = some m)
    (hboxes : n'.boxes = Function.update n.boxes b' m)
    (hempty : n'.network.inHdr.length = 0) (hworker : n'.worker = .putting b')
    (havail : n'.messageAvailable = n.messageAvailable) (hrecv : n'.receiving = n.receiving)
    (hrun : n'.aborted = n.aborted) :
    Inv numBoxes ident n' (h ++ n.movedIn b' ⟨none, .append mail⟩) := by
  have hcount := hi.counted.count
  have hnonneg := hi.counted.nonneg
  have hhome : n.inBox none = none := by rw [inBox, hw]
  have houtside (b : ℤ) : SynchList.Outside (n.boxes b) none := by
    rcases hi.threads.home b none with hin | ho
    · rw [hhome] at hin
      cases hin
    · exact ho
  have hfull := hi.counted.full hw
  have hlegal := hi.counted.legal hfull
  have hcopy : (n.network.receive n.buffer).2.1.Agree _ _ := Network.agree_receive hfull
  obtain ⟨mail', hsort', hletter⟩ := sort_eq mem (hlegal.congr hcopy)
  rw [hlegal.contents_congr hcopy] at hsort' hletter
  rw [hsort'] at hsort
  obtain ⟨rfl, rfl⟩ := Prod.mk.inj (Option.some.inj hsort)
  obtain ⟨hseen, hlocs⟩ := SynchList.append_call (houtside _) hm
  have hnil : n.movedIn (contents n.network.inHdr n.network.inbox).box ⟨none, .append mail'⟩ =
      [] := by
    rw [movedIn, hseen]
    rfl
  have hheld : n'.held = [] := if_pos hempty
  rw [hnil, List.append_nil]
  refine ⟨?_, ⟨?_, ?_, fun hne => absurd hempty hne⟩,
    ⟨?_, hi.carried.legal, hi.carried.received⟩, hrun.trans hi.running⟩
  · apply hi.threads.moveBox hm hboxes
    · rintro t ⟨⟩
    · exact fun t ht => inBox_of_ne_none hrecv ht
    · left
      rw [inBox, hworker]
    · exact .inl hhome
  · rw [havail]
    exact hnonneg
  · rw [hw, if_neg hfull] at hcount
    simp only [Worker.took] at hcount
    rw [havail, hworker, if_pos hempty]
    simp only [Worker.took]
    omega
  · intro b
    have hflow := hi.carried.flow b
    rw [linking_eq_nil (houtside b), List.append_nil, held, if_neg hfull] at hflow
    rw [← hflow, hheld, List.filter_nil, List.append_nil, linking, hboxes]
    congr 1
    by_cases hb : (contents n.network.inHdr n.network.inbox).box = b
    · subst hb
      rw [Function.update_self, hlocs, List.filter_cons_of_pos (by simp)]
      simp [SynchList.Loc.puts, hletter]
    · rw [Function.update_of_ne (Ne.symm hb), List.filter_cons_of_neg (by simpa)]
      exact linking_eq_nil (houtside b)

omit [DecidableEq Addr] in
/-- A packet comes in when `inbox` is empty. -/
theorem Inv.poll {packet : Option Mem} {mem : Mem} {network : Network}
    (hi : Inv numBoxes ident n h) (hlegal : ∀ p ∈ packet, LegalPacket numBoxes ident p)
    (hp : n.network.checkPktAvail ident packet mem = some (network, true))
    (hboxes : n'.boxes = n.boxes) (hin : n'.inBox = n.inBox) (hnet : n'.network = network)
    (havail : n'.messageAvailable = n.messageAvailable.V) (hworker : n'.worker = n.worker)
    (hrun : n'.aborted = n.aborted) :
    Inv numBoxes ident n' (h ++ packet.toList.map .read) := by
  obtain ⟨hempty, p, rfl⟩ := Network.checkPktAvail_true hp
  have hlegal := hlegal p rfl
  obtain ⟨inbox, hread, hcopy⟩ := Network.checkPktAvail_read mem hempty hlegal.toAddr
    hlegal.legal.length_le
  rw [hread] at hp
  obtain ⟨rfl, -⟩ := Prod.mk.inj (Option.some.inj hp)
  have hfull : n'.network.inHdr.length ≠ 0 := by
    rw [hnet]
    exact hlegal.legal.length_ne_zero
  have hheld : n'.held = [packetLetter p] := by
    rw [held, if_neg hfull, hnet, hlegal.legal.contents_congr hcopy]
    rfl
  have hcount := hi.counted.count
  have hnonneg := hi.counted.nonneg
  rw [if_pos hempty] at hcount
  refine ⟨⟨?_, ?_⟩, ⟨?_, ?_, ?_⟩, ⟨?_, ?_, ?_⟩, hrun.trans hi.running⟩
  · rw [hboxes, hin]
    exact hi.threads.home
  · rw [hboxes]
    exact hi.threads.readers
  · rw [havail]
    simp only [Semaphore.V]
    omega
  · rw [havail, hworker, if_neg hfull]
    simp only [Semaphore.V]
    omega
  · intro _
    rw [hnet]
    exact hlegal.legal.congr hcopy
  · intro b
    have hflow := hi.carried.flow b
    have hbefore : n.held = [] := if_pos hempty
    rw [hbefore, List.filter_nil, List.append_nil] at hflow
    have hlink : n'.linking b = n.linking b := by rw [linking, linking, hboxes]
    have hnil : puts b [(.read p : Seen Tid)] = [] := rfl
    have hread : reads b [(.read p : Seen Tid)] = [packetLetter p].filter (·.box = b) := rfl
    rw [Option.toList_some, List.map_singleton, puts_append, reads_append, ← hflow, hheld, hlink,
      hnil, hread, List.append_nil]
  · intro packet hpacket
    rw [List.filterMap_append, List.mem_append] at hpacket
    rcases hpacket with hpacket | hpacket
    · exact hi.carried.legal packet hpacket
    · obtain rfl := List.mem_singleton.mp hpacket
      exact hlegal
  · intro t b
    rw [List.filterMap_append, returned_append, hi.carried.received]
    rfl

omit [DecidableEq Tid] [DecidableEq Addr] in
theorem inHand_of_returns {t : Option Tid} {mail : Mail}
    (hr : n.returns b t = some (.outside (some mail))) :
    ((n.boxes b).thread t).inHand SynchList.Loc.ret = [mail] := by
  rw [Monitor.Thread.inHand, releaseV_of_returns hr]
  rfl

omit [DecidableEq Addr] in
theorem Carried.small_of_puts (hc : n.Carried numBoxes ident h) {x : Letter}
    (hx : x ∈ puts b h) : x.mailHdr.length.toNat ≤ maxMailSize := by
  have hread : x ∈ reads b h := by
    rw [← hc.flow b, List.append_assoc]
    exact List.mem_append_left _ hx
  obtain ⟨packet, hpacket, rfl⟩ := List.mem_map.mp (List.mem_filter.mp hread).1
  exact (hc.legal packet hpacket).legal.small

section Reach

/-- What a thread comes out of `Remove` with was put into the mailbox. -/
theorem mem_puts_of_returns {t : Option Tid} {mail : Mail}
    (hb : (SynchList.machine.observe (Monitor.State.moved SynchList.code SynchList.Loc.puts
      SynchList.Loc.ret)).Reachable (n.boxes b, h.filterMap (Seen.boxOf b)))
    (hr : n.returns b t = some (.outside (some mail))) : mail.letter ∈ puts b h := by
  obtain ⟨-, xs, -, hfifo⟩ := Monitor.fifo SynchList.queueClient
    (fun _ => SynchList.Contents.nil) SynchList.Loc.fine_start hb
  have hgot := Monitor.delivered hb t
  rw [Monitor.Delivered, inHand_of_returns hr] at hgot
  have htook : mail ∈ (h.filterMap (Seen.boxOf b)).filterMap (Moved.tookBy t) := by
    rw [hgot]
    exact List.mem_append_right _ (List.mem_singleton.mpr rfl)
  obtain ⟨x, hx, htook⟩ := List.mem_filterMap.mp htook
  apply List.mem_map_of_mem
  rw [← hfifo]
  apply List.mem_append_left
  apply List.mem_filterMap.mpr
  refine ⟨x, hx, ?_⟩
  cases x with
  | took u y =>
    obtain ⟨-, hy⟩ := Option.ite_none_right_eq_some.mp htook
    exact hy
  | _ => cases htook

theorem inv_step (hi : Inv numBoxes ident n h)
    (hbox : ∀ b, (SynchList.machine.observe (Monitor.State.moved SynchList.code
      SynchList.Loc.puts SynchList.Loc.ret)).Reachable (n.boxes b, h.filterMap (Seen.boxOf b)))
    (hok : EventOk machines numBoxes ident (n, h) e)
    (hs : Acts machines numBoxes ident n e l n') : Inv numBoxes ident n' (h ++ l) := by
  cases hs with
  | sender =>
    refine hi.keep rfl rfl rfl rfl hi.counted.nonneg rfl ?_ ?_ ?_
    · exact fun b => view_sender fun _ => rfl
    · exact view_sender fun _ => rfl
    · exact fun t b => view_sender fun _ => rfl
  | @sendFail packet t pktHdr mailHdr data mem hq =>
    obtain ⟨hlen, hbox, -⟩ := hok.1
    rw [PostOffice.send, if_pos hlen, if_pos hbox] at hq
    cases hq
  | receiveFail hb => exact absurd hok.1 hb
  | @receive packet t b m ht hm =>
    refine hi.moveBox_silent hm rfl (by simp) ?_ (.inl ?_) (.inl ht) rfl rfl rfl rfl ?_
    · intro u hu
      exact inBox_of_ne (by rfl) (by rfl) hu
    · exact Function.update_self t _ _
    · rintro u ⟨⟩
      rcases hi.threads.home b (some t) with hin | ⟨ret, hpc⟩
      · rw [inBox, ht] at hin
        cases hin
      · rw [Monitor.Thread.inHand, hpc]
  | @remove packet t b m lost mem ht hm hr =>
    refine hi.moveBox_silent hm rfl (by simp) ?_ (.inl ht) (.inr ht) rfl rfl rfl rfl ?_
    · exact fun _ _ => rfl
    · exact fun _ _ => inHand_eq_nil hr
  | @get packet t b m lost mem mail ht hm hr hlen =>
    refine hi.moveBox hm rfl (by simp) ?_ (.inr ?_) (.inr ht) rfl rfl rfl rfl ?_ rfl ?_
    · intro u hu
      exact inBox_of_ne (by rfl) (by rfl) hu
    · exact SynchList.outside_of_release (releaseV_of_returns hr) hm
    · exact fun _ => rfl
    · intro u b'
      rw [returned_movedIn, inHand_of_returns hr]
      have hletter : Mail.letter { mail with
          data := mem.copy 0 mail.mailHdr.length.toNat mail.data } = mail.letter := by
        rw [Mail.letter, Mail.letter, letter, letter, Mem.bytes_congr Mem.agree_copy]
      by_cases hand : t = u ∧ b = b'
      · simp [Seen.receivedOf, hand, hletter]
      · simp [Seen.receivedOf, hand]
  | @getFail packet t b m lost mem mail ht hm hr hlen =>
    exact absurd (hi.carried.small_of_puts (mem_puts_of_returns (hbox b) hr)) hlen
  | @awaitSleep packet addr mem hw hv =>
    refine hi.keep rfl ?_ rfl ?_ le_rfl rfl (fun _ => rfl) rfl (fun _ _ => rfl)
    · refine inBox_congr rfl ?_
      rw [inBox, inBox, hw]
    · rw [hw, hv]
  | @awaitPass packet addr mem hw hv =>
    have hnonneg := hi.counted.nonneg
    refine hi.keep rfl ?_ rfl ?_ ?_ rfl (fun _ => rfl) rfl (fun _ _ => rfl)
    · refine inBox_congr rfl ?_
      rw [inBox, inBox, hw]
    · rw [hw]
      simp only [Worker.took]
      omega
    · change 0 ≤ n.messageAvailable.value - 1
      omega
  | @deliverFail packet addr mem hw hsort =>
    have hfull := hi.counted.full hw
    have hlegal := (hi.counted.legal hfull).congr
      (Network.agree_receive hfull : (n.network.receive n.buffer).2.1.Agree _ _)
    obtain ⟨mail, hsort', -⟩ := sort_eq mem hlegal
    rw [hsort'] at hsort
    cases hsort
  | @deliver packet addr mem b mail m hw hsort hm =>
    exact hi.deliver hw hsort hm rfl rfl rfl rfl rfl rfl
  | @append packet addr mem b m hw hm hr =>
    have hin : n.inBox none = some b := by rw [inBox, hw]
    refine hi.moveBox_silent hm rfl ?_ ?_ (.inl hin) (.inr hin) rfl rfl rfl rfl ?_
    · cases addr <;> simp
    · exact fun _ _ => rfl
    · rintro u ⟨⟩
  | @appended packet addr mem b m r hw hm hr =>
    have hin : n.inBox none = some b := by rw [inBox, hw]
    refine hi.moveBox_silent hm rfl ?_ ?_ (.inr ?_) (.inr hin) rfl rfl ?_ rfl ?_
    · cases addr <;> simp
    · intro u hu
      exact inBox_of_ne_none (by rfl) hu
    · exact SynchList.outside_of_release (releaseV_of_returns hr) hm
    · rw [hw]
      rfl
    · rintro u ⟨⟩
  | @pollFail packet mem hp =>
    refine absurd hp (Network.checkPktAvail_ne_none ?_ ?_)
    · exact fun p hp => (hok.2 p hp).toAddr
    · exact fun p hp => (hok.2 p hp).legal.length_le
  | @pollNothing packet mem network hp =>
    obtain rfl := Network.checkPktAvail_false hp
    refine hi.keep rfl rfl rfl rfl hi.counted.nonneg rfl (fun _ => rfl) rfl (fun _ _ => rfl)
  | @poll packet mem network hp =>
    exact hi.poll hok.2 hp rfl rfl rfl rfl rfl rfl

theorem inv_start (hn : n.Start) : Inv numBoxes ident n ([] : List (Seen Tid)) := by
  have hthread (b : ℤ) (t : Option Tid) : ((n.boxes b).thread t).pc = .client (.outside none) := by
    have hb : Monitor.Start _ _ (n.boxes b) := hn.boxes b
    rw [hb.thread t]
  have houtside (b : ℤ) : SynchList.Outside (n.boxes b) none := ⟨none, hthread b none⟩
  have hheld : n.held = [] := if_pos hn.length
  refine ⟨⟨?_, ?_⟩, ⟨?_, ?_, ?_⟩, ⟨?_, ?_, fun _ _ => rfl⟩, hn.aborted⟩
  · exact fun b t => .inr ⟨none, hthread b t⟩
  · intro b t
    rw [Monitor.State.locs_client (hthread b (some t))]
    rfl
  · rw [hn.messageAvailable]
  · rw [hn.messageAvailable, hn.worker, if_pos hn.length]
    rfl
  · exact fun hne => absurd hn.length hne
  · intro b
    rw [linking_eq_nil (houtside b), hheld]
    rfl
  · intro packet hp
    cases hp

theorem inv_reach {p : Node Tid Addr × List (Seen Tid)}
    (hr : ((machine machines numBoxes ident).observe (seen machines numBoxes ident)).Reach
      (EventOk machines numBoxes ident) p) : Inv numBoxes ident p.1 p.2 := by
  apply hr.invariant (fun p => Inv numBoxes ident p.1 p.2)
  · rintro ⟨n, l⟩ ⟨hn, rfl⟩
    exact inv_start hn
  · intro p e p' hp hi hok hs
    obtain ⟨hstep, hseen⟩ := Machine.observe_step.mp hs
    rw [hseen]
    exact inv_step hi (box_reach hp) hok (acts_of_step hstep)

end Reach
end Node
end Coursework.Nachos.PostOffice
