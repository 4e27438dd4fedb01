import Nflambda.Runtime.Conservation

/-!
# Routes of packets

Library `Runtime`. Which actions a packet executes is decided by the action
table and by the paths installed in the states, `src/runtime/worker.h:80–121`:
an action copies an entry of its state's `simple_path` to the message. While no
command arrives, every packet follows a trail of these entries, whatever the
interleaving of the workers.
-/

namespace Nflambda.Runtime

open Nflambda.Base Finset

variable {H : Type}

/-! ### Trails -/

/-- The action of entry `a` can send a message to entry `b`, with the paths that are installed
in its state. -/
def Config.Next (c : Config H) (a b : Int) : Prop :=
  ∃ e f s σ m st, c.entry a = some e ∧ e.action = some (.action f) ∧ e.state = .state s ∧
    σ.simplePath = (c.states s).simplePath ∧ f σ m = .ok (st, b)

/-- Entry `a` transmits packets. -/
def Config.Last (c : Config H) (a : Int) : Prop :=
  ∃ e, c.entry a = some e ∧ e.action = some .transmitPacket

/-- The actions already executed and the one to execute next, on the way of a packet that starts
at entry `a`. -/
inductive Config.Trail (c : Config H) (a : Int) : List Int → Int → Prop
  | start : c.Trail a [] a
  | next {l : List Int} {b d : Int} (h : c.Trail a l b) (hb : c.Next b d) : c.Trail a (l ++ [b]) d

/-- A whole way: a trail whose last action transmits the packet. -/
def Config.Complete (c : Config H) (a : Int) (l : List Int) : Prop :=
  ∃ l' b, l = l' ++ [b] ∧ c.Trail a l' b ∧ c.Last b

/-- The action at which a packet starts that worker `w` receives, `worker.h:172–177`. -/
def Config.firstOf (c : Config H) (w : Core) (p : Mbuf) : Int :=
  (c.workerList w).buckets ⟨p.rss.toNat % 512, p.bucket_lt⟩

/-- Network functions' actions leave the installed paths of their states alone. -/
def Config.KeepsPaths (c : Config H) : Prop :=
  ∀ a e f, c.entry a = some e → e.action = some (.action f) →
    ∀ σ m st b, f σ m = .ok (st, b) → st.simplePath = σ.simplePath

/-- The installed paths lead to entries of the action table. -/
def Config.PathsInTable (c : Config H) : Prop :=
  ∀ a b, c.Next a b → (idx? ACTION_TABLE_SIZE b).isSome

/-- What the way of a packet depends on is the same in two configurations. -/
structure SameRoutes (c c' : Config H) : Prop where
  entry : ∀ i, entryFields c' i = entryFields c i
  path : ∀ s, (c'.states s).simplePath = (c.states s).simplePath
  first : ∀ w, (c'.workerList w).buckets = (c.workerList w).buckets

theorem SameRoutes.refl (c : Config H) : SameRoutes c c :=
  ⟨fun _ ↦ rfl, fun _ ↦ rfl, fun _ ↦ rfl⟩

/-- An event of the workers, not a command. -/
def Event.IsWork : Event → Prop
  | .command _ => False
  | _ => True

instance : (ev : Event) → Decidable ev.IsWork
  | .command _ => instDecidableFalse
  | .work _ | .rxBurst _ _ | .alloc _ _ | .quit => instDecidableTrue

/-- An entry of a configuration is read in every other one with the same routes. -/
theorem SameRoutes.exists_entry {c c' : Config H} (h : SameRoutes c c') {a : Int}
    {e : ActionTableEntry H} (he : c'.entry a = some e) :
    ∃ e', c.entry a = some e' ∧ e'.action = e.action ∧ e'.state = e.state ∧
      e'.coreId = e.coreId :=
  exists_entry_of_fields (fun i ↦ (h.entry i).symm) he

/-- A configuration whose function, with its path, was computed from a state of the run. -/
theorem SameRoutes.next {c c' : Config H} (h : SameRoutes c c') {a b : Int}
    {e : ActionTableEntry H} {f : State H → Message → Except Fault (State H × Int)}
    {s : Fin STATE_NUM} {m : Message} {st : State H} (he : c'.entry a = some e)
    (ha : e.action = some (.action f)) (hs : e.state = .state s)
    (hf : f (c'.states s) m = .ok (st, b)) : c.Next a b := by
  obtain ⟨e', he', ha', hs', -⟩ := h.exists_entry he
  exact ⟨e', f, s, c'.states s, m, st, he', ha'.trans ha, hs'.trans hs, h.path s, hf⟩

/-- Running an action keeps the routes. -/
theorem SameRoutes.setState {c c' : Config H} (h : SameRoutes c c') (hk : c.KeepsPaths)
    {a b : Int} {e : ActionTableEntry H}
    {f : State H → Message → Except Fault (State H × Int)} {s : Fin STATE_NUM} {m : Message}
    {st : State H} (he : c'.entry a = some e) (ha : e.action = some (.action f))
    (hf : f (c'.states s) m = .ok (st, b)) : SameRoutes c (c'.setState s st) := by
  obtain ⟨e', he', ha', -, -⟩ := h.exists_entry he
  have hst := hk a e' f he' (ha'.trans ha) _ _ _ _ hf
  refine ⟨h.entry, fun t ↦ ?_, h.first⟩
  by_cases ht : t = s
  · subst ht
    simpa [Config.setState, hst] using h.path t
  · simpa [Config.setState, ht] using h.path t

/-- A step of the workers keeps the routes. -/
theorem SameRoutes.taken {c : Config H} {n n' : Net H} {ev : Event} (h : SameRoutes c n.config)
    (hk : c.KeepsPaths) (ht : Taken n ev n') (hev : ev.IsWork) : SameRoutes c n'.config := by
  cases ht with
  | transmit w d e v =>
    rw [complete_config, transmitPacket, Net.store_config]
    exact h
  | act w d e f s st path hpc he hc ha hs hf hp =>
    rw [Net.store_config]
    exact h.setState hk he ha hf
  | actEnd w d e f s st hpc he hc ha hs hf =>
    rw [complete_config, Net.store_config]
    exact h.setState hk he ha hf
  | command => exact hev.elim
  | quit => exact ⟨h.entry, h.path, h.first⟩
  | move | pop | begin | relay | push | retry | rxBurst | drop | copy => exact h

/-- With paths that stay in the action table, every step sets a valid path. -/
theorem SameRoutes.pathsValid {c : Config H} {n : Net H} (h : SameRoutes c n.config)
    (hp : c.PathsInTable) (ev : Event) : PathsValid n ev := by
  cases ev with
  | rxBurst | alloc | command | quit => trivial
  | work w =>
    intro path hpath
    unfold Net.selectedPath at hpath
    split at hpath
    · next d hpc =>
      split at hpath
      · simp at hpath
      · next e he =>
        split at hpath
        · split at hpath
          · next f s ha hs =>
            split at hpath
            · next st b hf =>
              rw [Option.some.injEq] at hpath
              subst hpath
              exact hp _ _ (h.next he ha hs hf)
            · simp at hpath
          · simp at hpath
        · simp at hpath
    · simp at hpath

/-! ### Where a packet is -/

/-- The message in a worker's hands at a program point. -/
def Net.messageAt (n : Net H) (w : Core) : Pc → List Message
  | .handle h => [n.message w h]
  | .enqueue _ i _ => [n.mem i]
  | _ => []

/-- The message is in some worker's hands, or waits in a mailbox. -/
def Net.Holds (n : Net H) (m : Message) : Prop :=
  (∃ w, m ∈ n.messageAt w (n.pc w)) ∨ ∃ w, ∃ i ∈ n.mailbox w, n.mem i = m

/-- The actions that have been called for a packet, the oldest first. -/
def Net.actionsOf (n : Net H) (p : Mbuf) : List Int :=
  (n.hist.calls.filter (fun x ↦ x.m = p)).map Call.actionId

private theorem map_messageAt (n : Net H) (w : Core) (pc : Pc) :
    (n.messageAt w pc).map Message.m = n.handAt w pc := by
  cases pc <;> rfl

private theorem inHand_pos {n : Net H} {w : Core} {m : Message}
    (h : m ∈ n.messageAt w (n.pc w)) : 1 ≤ (n.handAt w (n.pc w)).count m.m := by
  rw [← map_messageAt]
  exact List.count_pos_iff.mpr (List.mem_map_of_mem h)

private theorem inMail_pos {n : Net H} {w : Core} {i : Item} (h : i ∈ n.mailbox w) :
    1 ≤ inMail n (n.mem i).m := by
  have hmem : (n.mem i).m ∈ n.carry (n.mailbox w) := List.mem_map_of_mem h
  exact le_trans (List.count_pos_iff.mpr hmem)
    (le_total (fun v ↦ (n.carry (n.mailbox v)).count (n.mem i).m) w)

private theorem inBurst_pos {n : Net H} {w : Core} {p : Mbuf} (h : p ∈ (n.pc w).pending) :
    1 ≤ inBurst n p :=
  le_trans (List.count_pos_iff.mpr h) (le_total (fun v ↦ (n.pc v).pending.count p) w)

/-- A packet in a burst or in a message has not left the network. -/
theorem PacketInvariant.not_out {n : Net H} (hn : PacketInvariant n) {p : Mbuf}
    (hp : (∃ w, p ∈ (n.pc w).pending) ∨ ∃ m, n.Holds m ∧ m.m = p) :
    p ∉ n.hist.transmitted ∧ p ∉ n.hist.freed := by
  have hone : places n p ≤ 1 := by
    rw [hn.placed p]
    exact List.nodup_iff_count_le_one.mp hn.fresh p
  unfold places at hone
  have hin : 1 ≤ inBurst n p + inHand n p + inMail n p := by
    rcases hp with ⟨w, hw⟩ | ⟨m, ⟨w, hw⟩ | ⟨w, i, hi, rfl⟩, rfl⟩
    · have := inBurst_pos hw
      omega
    · have hle := le_total (fun v ↦ (n.handAt v (n.pc v)).count m.m) w
      have hpos := inHand_pos hw
      unfold inHand
      omega
    · have := inMail_pos hi
      omega
  refine ⟨fun ht ↦ ?_, fun hf ↦ ?_⟩
  · have := List.count_pos_iff.mpr ht
    omega
  · have := List.count_pos_iff.mpr hf
    omega

/-- A packet that was transmitted is nowhere else. -/
theorem PacketInvariant.gone {n : Net H} (hn : PacketInvariant n) {p : Mbuf}
    (hp : p ∈ n.hist.transmitted) :
    (∀ m, n.Holds m → m.m ≠ p) ∧ (∀ w, p ∉ (n.pc w).pending) ∧ p ∉ n.hist.freed := by
  refine ⟨fun m hm hmp ↦ (hn.not_out (.inr ⟨m, hm, hmp⟩)).1 hp,
    fun w hw ↦ (hn.not_out (.inl ⟨w, hw⟩)).1 hp, fun hf ↦ ?_⟩
  have hone : places n p ≤ 1 := by
    rw [hn.placed p]
    exact List.nodup_iff_count_le_one.mp hn.fresh p
  have ht := List.count_pos_iff.mpr hp
  have hf := List.count_pos_iff.mpr hf
  unfold places at hone
  omega

/-- A packet that a worker handles is in no other message, in no burst and has not left the
network. -/
theorem PacketInvariant.alone {n : Net H} (hn : PacketInvariant n) {w : Core} {d : Held}
    (hpc : n.pc w = .handle d) {p : Mbuf} (hp : (n.message w d).m = p) :
    (∀ m, n.Holds m → m.m = p → m = n.message w d) ∧ (∀ v, p ∉ (n.pc v).pending) ∧
      p ∉ n.hist.transmitted ∧ p ∉ n.hist.freed := by
  have hone : places n p ≤ 1 := by
    rw [hn.placed]
    exact List.nodup_iff_count_le_one.mp hn.fresh _
  have hself : (n.handAt w (n.pc w)).count p = 1 := by
    rw [hpc, Net.handAt, hp, List.count_singleton_self]
  have hle := le_total (fun v ↦ (n.handAt v (n.pc v)).count p) w
  unfold places inHand at hone
  refine ⟨?_, fun v hv ↦ ?_, fun ht ↦ ?_, fun hf ↦ ?_⟩
  · intro m hm hmp
    rcases hm with ⟨v, hv⟩ | ⟨v, i, hi, rfl⟩
    · have hpos := inHand_pos hv
      rw [hmp] at hpos
      have hvw : v = w := by
        by_contra hne
        have hpair := add_le_total (fun u ↦ (n.handAt u (n.pc u)).count p) hne
        omega
      rw [hvw, hpc] at hv
      exact List.mem_singleton.mp hv
    · have hpos := inMail_pos hi
      rw [hmp] at hpos
      omega
  · have := inBurst_pos hv
    omega
  · have := List.count_pos_iff.mpr ht
    omega
  · have := List.count_pos_iff.mpr hf
    omega

/-- A received packet was transmitted or freed, waits in a burst or is in a message. -/
theorem PacketInvariant.somewhere {n : Net H} (hn : PacketInvariant n) {p : Mbuf}
    (hp : p ∈ n.received) :
    p ∈ n.hist.transmitted ∨ p ∈ n.hist.freed ∨ (∃ w, p ∈ (n.pc w).pending) ∨
      ∃ m, n.Holds m ∧ m.m = p := by
  by_contra hnone
  push Not at hnone
  obtain ⟨ht, hf, hpend, hheld⟩ := hnone
  have hburst : inBurst n p = 0 :=
    sum_eq_zero fun w _ ↦ List.count_eq_zero_of_not_mem (hpend w)
  have hhand : inHand n p = 0 := by
    apply sum_eq_zero
    intro w _
    rw [← map_messageAt]
    apply List.count_eq_zero_of_not_mem
    intro hw
    obtain ⟨m, hm, hmp⟩ := List.mem_map.mp hw
    exact hheld m (.inl ⟨w, hm⟩) hmp
  have hmail : inMail n p = 0 := by
    apply sum_eq_zero
    intro w _
    apply List.count_eq_zero_of_not_mem
    intro hw
    obtain ⟨i, hi, hip⟩ := List.mem_map.mp hw
    exact hheld (n.mem i) (.inr ⟨w, i, hi, rfl⟩) hip
  have hplaced := hn.placed p
  rw [List.count_eq_one_of_mem hn.fresh hp] at hplaced
  unfold places at hplaced
  rw [hburst, hhand, hmail, List.count_eq_zero_of_not_mem ht,
    List.count_eq_zero_of_not_mem hf] at hplaced
  cases hplaced

/-! ### How events change what is held -/

private theorem holds_of_update (n : Net H) {n' : Net H} {m : Message} (h : n'.Holds m)
    {w : Core} {pc : Pc} (hpc : n'.pc = Function.update n.pc w pc) (hmem : n'.mem = n.mem)
    (hs : n'.scratch = n.scratch) (hw : ∀ m ∈ n.messageAt w pc, n.Holds m)
    (hmail : ∀ v, ∀ i ∈ n'.mailbox v, n.Holds (n.mem i)) : n.Holds m := by
  have hat (v : Core) (q : Pc) : n'.messageAt v q = n.messageAt v q := by
    cases q with
    | handle d => cases d <;> simp [Net.messageAt, Net.message, hmem, hs]
    | enqueue => simp [Net.messageAt, hmem]
    | idle | top | dequeue | rx | burst => rfl
  rcases h with ⟨v, hv⟩ | ⟨v, i, hi, rfl⟩
  · rw [hat, hpc] at hv
    by_cases hvw : v = w
    · subst hvw
      rw [Function.update_self] at hv
      exact hw m hv
    · rw [Function.update_of_ne hvw] at hv
      exact .inl ⟨v, hv⟩
  · rw [hmem]
    exact hmail v i hi

private theorem messageAt_resume (n : Net H) (w : Core) (d : Held) :
    n.messageAt w d.resume = [] := by
  cases d <;> rfl

private theorem holds_complete {n : Net H} {w : Core} {d : Held} {m : Message}
    (h : (complete n w d).Holds m) : n.Holds m := by
  have hmail : ∀ v, ∀ i ∈ n.mailbox v, n.Holds (n.mem i) := fun v i hi ↦ .inr ⟨v, i, hi, rfl⟩
  have hw : ∀ m ∈ n.messageAt w d.resume, n.Holds m := by
    rw [messageAt_resume]
    exact fun _ hm ↦ absurd hm List.not_mem_nil
  cases d with
  | packet r => exact holds_of_update n h rfl rfl rfl hw hmail
  | item i =>
    unfold complete at h
    dsimp only at h
    split at h <;> exact holds_of_update n h rfl rfl rfl hw hmail

private theorem holds_store {n : Net H} {w : Core} {d : Held} {x m : Message}
    (h : (n.store w d x).Holds m) : m = x ∨ n.Holds m := by
  have hmem (j : Item) : (n.store w d x).mem j = x ∨ (n.store w d x).mem j = n.mem j := by
    cases d with
    | packet r => exact .inr rfl
    | item i =>
      by_cases hj : j = i
      · exact .inl (by simp [Net.store, hj])
      · exact .inr (by simp [Net.store, hj])
  have hscratch (v : Core) :
      (n.store w d x).scratch v = x ∨ (n.store w d x).scratch v = n.scratch v := by
    cases d with
    | item i => exact .inr rfl
    | packet r =>
      by_cases hv : v = w
      · exact .inl (by simp [Net.store, hv])
      · exact .inr (by simp [Net.store, hv])
  rcases h with ⟨v, hv⟩ | ⟨v, i, hi, rfl⟩
  · rw [Net.store_pc] at hv
    cases hpc : n.pc v with
    | idle | top | dequeue | rx | burst =>
      rw [hpc] at hv
      exact absurd hv List.not_mem_nil
    | handle d' =>
      rw [hpc] at hv
      obtain rfl := List.mem_singleton.mp hv
      have hold : n.Holds (n.message v d') := by
        left
        refine ⟨v, ?_⟩
        rw [hpc]
        exact List.mem_singleton_self _
      cases d' with
      | item j =>
        rcases hmem j with hj | hj
        · exact .inl hj
        · right
          rwa [Net.message, hj]
      | packet r =>
        rcases hscratch v with hj | hj
        · exact .inl hj
        · right
          rwa [Net.message, hj]
    | enqueue dest j d' =>
      rw [hpc] at hv
      obtain rfl := List.mem_singleton.mp hv
      rcases hmem j with hj | hj
      · exact .inl hj
      · right
        rw [hj]
        left
        refine ⟨v, ?_⟩
        rw [hpc]
        exact List.mem_singleton_self _
  · rw [Net.store_mailbox] at hi
    rcases hmem i with hj | hj
    · exact .inl hj
    · right
      rw [hj]
      exact .inr ⟨v, i, hi, rfl⟩

/-! ### The trail of a packet -/

/-- What has been called for a packet, followed by the action of the message that carries it, is
a trail that starts at the entry the packet's bucket leads to. A transmitted packet has gone the
whole way. -/
structure OnTrail (c : Config H) (n : Net H) (p : Mbuf) : Prop where
  held : ∀ m, n.Holds m → m.m = p → ∃ w, (w, p) ∈ n.hist.received ∧
    c.Trail (c.firstOf w p) (n.actionsOf p) m.actionId
  pending : ∀ w, p ∈ (n.pc w).pending → (w, p) ∈ n.hist.received ∧ n.actionsOf p = []
  unseen : p ∉ n.received → n.actionsOf p = []
  transmitted : p ∈ n.hist.transmitted → ∃ w, (w, p) ∈ n.hist.received ∧
    c.Complete (c.firstOf w p) (n.actionsOf p)
  freed : p ∈ n.hist.freed → ∃ w a, (w, p) ∈ n.hist.received ∧
    c.Trail (c.firstOf w p) (n.actionsOf p) a

/-- A call adds to the actions of its packet. -/
theorem actionsOf_snoc {n n' : Net H} {x : Call} (h : n'.hist.calls = n.hist.calls ++ [x])
    (p : Mbuf) : n'.actionsOf p = n.actionsOf p ++ if x.m = p then [x.actionId] else [] := by
  rw [Net.actionsOf, h, List.filter_append, List.map_append, Net.actionsOf]
  by_cases hp : x.m = p <;> simp [hp]

private theorem mem_received {n : Net H} {w : Core} {p : Mbuf} (h : (w, p) ∈ n.hist.received) :
    p ∈ n.received :=
  List.mem_map_of_mem h

/-- An event that calls no action for a packet, and frees it only out of a message. -/
private theorem OnTrail.quiet {c : Config H} {n n' : Net H} {p : Mbuf} (hn : OnTrail c n p)
    (hr : ∀ w, (w, p) ∈ n.hist.received → (w, p) ∈ n'.hist.received)
    (ha : n'.actionsOf p = n.actionsOf p)
    (ht : p ∈ n'.hist.transmitted → p ∈ n.hist.transmitted)
    (hf : p ∈ n'.hist.freed → p ∈ n.hist.freed ∨ ∃ m, n.Holds m ∧ m.m = p)
    (hh : ∀ m, n'.Holds m → m.m = p →
      ∃ m', n.Holds m' ∧ m'.m = p ∧ m'.actionId = m.actionId)
    (hp : ∀ w, p ∈ (n'.pc w).pending → p ∈ (n.pc w).pending) : OnTrail c n' p where
  held m hm hmp := by
    obtain ⟨m', hm', hmp', hid⟩ := hh m hm hmp
    obtain ⟨w, hw, htrail⟩ := hn.held m' hm' hmp'
    rw [ha, ← hid]
    exact ⟨w, hr w hw, htrail⟩
  pending w hw := by
    obtain ⟨hrec, hnone⟩ := hn.pending w (hp w hw)
    rw [ha]
    exact ⟨hr w hrec, hnone⟩
  unseen hu := by
    rw [ha]
    apply hn.unseen
    intro h
    obtain ⟨⟨w, q⟩, hw, rfl⟩ := List.mem_map.mp h
    exact hu (mem_received (hr w hw))
  transmitted hpt := by
    obtain ⟨w, hw, hdone⟩ := hn.transmitted (ht hpt)
    rw [ha]
    exact ⟨w, hr w hw, hdone⟩
  freed hpf := by
    rw [ha]
    rcases hf hpf with h | ⟨m, hm, hmp⟩
    · obtain ⟨w, a, hw, htrail⟩ := hn.freed h
      exact ⟨w, a, hr w hw, htrail⟩
    · obtain ⟨w, hw, htrail⟩ := hn.held m hm hmp
      exact ⟨w, m.actionId, hr w hw, htrail⟩

private theorem holds_begin {n : Net H} {w : Core} {x : Mbuf} {rest : List Mbuf} {m : Message}
    (h : (beginPacket n w x rest).Holds m) : m = startPacket n w x ∨ n.Holds m := by
  rcases h with ⟨v, hv⟩ | ⟨v, i, hi, rfl⟩
  · by_cases hvw : v = w
    · subst hvw
      left
      simpa [beginPacket, Net.setPc, Net.messageAt, Net.message] using hv
    · right
      left
      refine ⟨v, ?_⟩
      simp only [beginPacket, Net.setPc, Function.update_of_ne hvw] at hv
      cases hpc : n.pc v with
      | handle d =>
        rw [hpc] at hv
        cases d with
        | item j => exact hv
        | packet r => simpa [Net.messageAt, Net.message, Function.update_of_ne hvw] using hv
      | idle | top | dequeue | rx | burst | enqueue =>
        rw [hpc] at hv
        exact hv
  · exact .inr (.inr ⟨v, i, hi, rfl⟩)

/-- A packet starts at the entry of its bucket. -/
private theorem OnTrail.begin {c : Config H} {n : Net H} {p : Mbuf} (hn : OnTrail c n p)
    (hs : SameRoutes c n.config) {w : Core} {x : Mbuf} {rest : List Mbuf}
    (hpc : n.pc w = .burst (x :: rest)) : OnTrail c (beginPacket n w x rest) p := by
  refine ⟨fun m hm hmp ↦ ?_, fun v hv ↦ ?_, hn.unseen, hn.transmitted, hn.freed⟩
  · rcases holds_begin hm with rfl | hm
    · obtain rfl : x = p := hmp
      obtain ⟨hrec, hnone⟩ := hn.pending w (by rw [hpc]; exact List.mem_cons_self)
      have hfirst : (startPacket n w x).actionId = c.firstOf w x := by
        rw [Config.firstOf, ← hs.first w]
        rfl
      have hnone' : (beginPacket n w x rest).actionsOf x = [] := hnone
      rw [hfirst, hnone']
      exact ⟨w, hrec, .start⟩
    · exact hn.held m hm hmp
  · apply hn.pending v
    by_cases hvw : v = w
    · subst hvw
      rw [hpc]
      simp only [beginPacket, Net.setPc, Function.update_self, Pc.pending] at hv
      exact List.mem_cons_of_mem x hv
    · simpa only [beginPacket, Net.setPc, Function.update_of_ne hvw] using hv

private theorem OnTrail.receive {c : Config H} {n : Net H} {p : Mbuf} (hn : OnTrail c n p)
    {w : Core} {pkts : List Mbuf} (hpkts : n.CanReceive pkts) :
    OnTrail c (receive n w pkts) p := by
  have hh (m : Message) (hm : (Runtime.receive n w pkts).Holds m) : n.Holds m := by
    refine holds_of_update n hm rfl rfl rfl (fun m hm ↦ ?_) (fun v i hi ↦ .inr ⟨v, i, hi, rfl⟩)
    exact absurd hm List.not_mem_nil
  by_cases hp : p ∈ pkts
  · have hnew : p ∉ n.received := hpkts.2.2 p hp
    have hnone : (Runtime.receive n w pkts).actionsOf p = [] := hn.unseen hnew
    refine ⟨fun m hm hmp ↦ ?_, fun v hv ↦ ⟨?_, hnone⟩, fun _ ↦ hnone, fun ht ↦ ?_, fun hf ↦ ?_⟩
    · obtain ⟨v, hv, -⟩ := hn.held m (hh m hm) hmp
      exact absurd (mem_received hv) hnew
    · by_cases hvw : v = w
      · subst hvw
        exact List.mem_append_right _ (List.mem_map_of_mem hp)
      · simp only [Runtime.receive, Net.setPc, Function.update_of_ne hvw] at hv
        exact absurd (mem_received (hn.pending v hv).1) hnew
    · obtain ⟨v, hv, -⟩ := hn.transmitted ht
      exact absurd (mem_received hv) hnew
    · obtain ⟨v, a, hv, -⟩ := hn.freed hf
      exact absurd (mem_received hv) hnew
  · refine hn.quiet (fun v hv ↦ List.mem_append_left _ hv) rfl id .inl
      (fun m hm hmp ↦ ⟨m, hh m hm, hmp, rfl⟩) fun v hv ↦ ?_
    by_cases hvw : v = w
    · subst hvw
      simp only [Runtime.receive, Net.setPc, Function.update_self, Pc.pending] at hv
      exact absurd hv hp
    · simpa only [Runtime.receive, Net.setPc, Function.update_of_ne hvw] using hv

/-- The call of an action for the packet that worker `w` handles, seen from all packets: what the
call leaves alone is on its trail as before. -/
private theorem OnTrail.other {c : Config H} {n n' : Net H} {p : Mbuf} (hn : OnTrail c n p)
    {x : Call} (hx : x.m ≠ p) (hr : n'.hist.received = n.hist.received)
    (hc : n'.hist.calls = n.hist.calls ++ [x])
    (ht : p ∈ n'.hist.transmitted → p ∈ n.hist.transmitted) (hf : n'.hist.freed = n.hist.freed)
    (hpend : ∀ v, (n'.pc v).pending = (n.pc v).pending)
    (hh : ∀ m, n'.Holds m → m.m = x.m ∨ n.Holds m) : OnTrail c n' p := by
  refine hn.quiet (fun v hv ↦ by rwa [hr]) ?_ ht (fun h ↦ .inl (by rwa [hf] at h))
    (fun m hm hmp ↦ ⟨m, ?_, hmp, rfl⟩) (fun v hv ↦ by rwa [hpend] at hv)
  · rw [actionsOf_snoc hc, if_neg hx, List.append_nil]
  · refine (hh m hm).resolve_left fun h ↦ hx ?_
    rw [← h, hmp]

/-- An action of a network function takes its packet one entry further. -/
private theorem OnTrail.act {c : Config H} {n n' : Net H} {x : Call} (hn : OnTrail c n x.m)
    (hi' : PacketInvariant n') {w : Core} {d : Held} {path : Int} (hpc : n.pc w = .handle d)
    (hpc' : n'.pc = n.pc) (hx : (n.message w d).m = x.m)
    (ha : (n.message w d).actionId = x.actionId) (hnext : c.Next x.actionId path)
    (hr : n'.hist.received = n.hist.received) (hc : n'.hist.calls = n.hist.calls ++ [x])
    (hm : n'.message w d = { n.message w d with path, actionId := path }) :
    OnTrail c n' x.m := by
  have hpc1 : n'.pc w = .handle d := by rw [hpc', hpc]
  have hx' : (n'.message w d).m = x.m := by rw [hm, hx]
  obtain ⟨halone, hpend, htrans, hfreed⟩ := hi'.alone hpc1 hx'
  have hheld : n.Holds (n.message w d) := .inl ⟨w, by rw [hpc]; exact List.mem_singleton_self _⟩
  obtain ⟨v, hv, htrail⟩ := hn.held _ hheld hx
  have hv' : (v, x.m) ∈ n'.hist.received := by rwa [hr]
  refine ⟨fun m hm' hmx ↦ ⟨v, hv', ?_⟩, fun u hu ↦ absurd hu (hpend u),
    fun h ↦ absurd (mem_received hv') h, fun h ↦ absurd h htrans, fun h ↦ absurd h hfreed⟩
  rw [halone m hm' hmx, hm, actionsOf_snoc hc, if_pos rfl]
  rw [ha] at htrail
  exact .next htrail hnext

/-- A packet is transmitted at the end of its trail. -/
private theorem OnTrail.transmit {c : Config H} {n n' : Net H} {x : Call} (hn : OnTrail c n x.m)
    (hi' : PacketInvariant n') {w : Core} {d : Held} (hpc : n.pc w = .handle d)
    (hx : (n.message w d).m = x.m) (ha : (n.message w d).actionId = x.actionId)
    (hlast : c.Last x.actionId) (hr : n'.hist.received = n.hist.received)
    (hc : n'.hist.calls = n.hist.calls ++ [x]) (ht : x.m ∈ n'.hist.transmitted) :
    OnTrail c n' x.m := by
  obtain ⟨hgone, hpend, hfreed⟩ := hi'.gone ht
  have hheld : n.Holds (n.message w d) := .inl ⟨w, by rw [hpc]; exact List.mem_singleton_self _⟩
  obtain ⟨v, hv, htrail⟩ := hn.held _ hheld hx
  have hv' : (v, x.m) ∈ n'.hist.received := by rwa [hr]
  refine ⟨fun m hm hmx ↦ absurd hmx (hgone m hm), fun u hu ↦ absurd hu (hpend u),
    fun h ↦ absurd (mem_received hv') h, fun _ ↦ ⟨v, hv', ?_⟩, fun h ↦ absurd h hfreed⟩
  rw [actionsOf_snoc hc, if_pos rfl]
  rw [ha] at htrail
  exact ⟨_, _, rfl, htrail, hlast⟩

private theorem pending_complete {n : Net H} {w : Core} {d : Held} (hpc : n.pc w = .handle d)
    (v : Core) : ((complete n w d).pc v).pending = (n.pc v).pending := by
  have hc : (complete n w d).pc = Function.update n.pc w d.resume := by
    unfold complete
    cases d with
    | packet r => rfl
    | item i =>
      dsimp only
      split <;> rfl
  rw [hc]
  by_cases hv : v = w
  · subst hv
    rw [Function.update_self, hpc]
    cases d <;> rfl
  · rw [Function.update_of_ne hv]

private theorem pending_update {n : Net H} {w : Core} {pc : Pc}
    (h : pc.pending = (n.pc w).pending) (v : Core) :
    (Function.update n.pc w pc v).pending = (n.pc v).pending := by
  by_cases hv : v = w
  · subst hv
    rw [Function.update_self, h]
  · rw [Function.update_of_ne hv]

private theorem holds_mailbox (n : Net H) (v : Core) : ∀ i ∈ n.mailbox v, n.Holds (n.mem i) :=
  fun i hi ↦ .inr ⟨v, i, hi, rfl⟩

/-- A worker moves to another program point, at which it has only messages that were in the
network before. -/
private theorem OnTrail.moved {c : Config H} {n n' : Net H} {p : Mbuf} (hn : OnTrail c n p)
    {w : Core} {pc : Pc} (hpc : n'.pc = Function.update n.pc w pc) (hmem : n'.mem = n.mem)
    (hs : n'.scratch = n.scratch) (hw : ∀ m ∈ n.messageAt w pc, n.Holds m)
    (hmail : ∀ v, ∀ i ∈ n'.mailbox v, n.Holds (n.mem i))
    (hpend : pc.pending = (n.pc w).pending) (hr : n'.hist.received = n.hist.received)
    (hc : n'.hist.calls = n.hist.calls) (ht : n'.hist.transmitted = n.hist.transmitted)
    (hf : p ∈ n'.hist.freed → p ∈ n.hist.freed ∨ ∃ m, n.Holds m ∧ m.m = p) :
    OnTrail c n' p := by
  apply hn.quiet
  · exact fun v hv ↦ by rwa [hr]
  · rw [Net.actionsOf, hc, Net.actionsOf]
  · exact fun h ↦ by rwa [ht] at h
  · exact hf
  · exact fun m hm hmp ↦ ⟨m, holds_of_update n hm hpc hmem hs hw hmail, hmp, rfl⟩
  · intro v hv
    rwa [hpc, pending_update hpend] at hv

private theorem holds_copy {n : Net H} {w dest : Core} {i : Item} {d : Held} {m : Message}
    (h : (copyPacket n w dest i d).Holds m) :
    m = { n.message w d with producerId := (w.val : Int) } ∨ n.Holds m := by
  have hmem (j : Item) : (copyPacket n w dest i d).mem j =
      { n.message w d with producerId := (w.val : Int) } ∨
        (copyPacket n w dest i d).mem j = n.mem j := by
    by_cases hj : j = i
    · left
      rw [hj]
      simp [copyPacket]
    · right
      simp [copyPacket, hj]
  have hitem (j : Item) (hold : n.Holds (n.mem j)) : (copyPacket n w dest i d).mem j =
      { n.message w d with producerId := (w.val : Int) } ∨
        n.Holds ((copyPacket n w dest i d).mem j) := by
    rcases hmem j with hj | hj
    · exact .inl hj
    · right
      rwa [hj]
  rcases h with ⟨v, hv⟩ | ⟨v, j, hj, rfl⟩
  · by_cases hvw : v = w
    · subst hvw
      left
      simpa [copyPacket, Net.setPc, Net.messageAt] using hv
    · have hpc : (copyPacket n w dest i d).pc v = n.pc v := Function.update_of_ne hvw _ _
      rw [hpc] at hv
      cases hpcv : n.pc v with
      | idle | top | dequeue | rx | burst =>
        rw [hpcv] at hv
        exact absurd hv List.not_mem_nil
      | enqueue dest' j d' =>
        rw [hpcv] at hv
        obtain rfl := List.mem_singleton.mp hv
        apply hitem j
        left
        refine ⟨v, ?_⟩
        rw [hpcv]
        exact List.mem_singleton_self _
      | handle d' =>
        rw [hpcv] at hv
        obtain rfl := List.mem_singleton.mp hv
        have hold : n.Holds (n.message v d') := by
          left
          refine ⟨v, ?_⟩
          rw [hpcv]
          exact List.mem_singleton_self _
        cases d' with
        | item j => exact hitem j hold
        | packet r => exact .inr hold
  · exact hitem j (holds_mailbox n v j hj)

private theorem holds_of_nil {n : Net H} {w : Core} {pc : Pc} (h : n.messageAt w pc = []) :
    ∀ m ∈ n.messageAt w pc, n.Holds m := by
  rw [h]
  exact fun m hm ↦ absurd hm List.not_mem_nil

private theorem holds_of_pc {n : Net H} {w : Core} {pc : Pc} (h : n.pc w = pc) :
    ∀ m ∈ n.messageAt w pc, n.Holds m :=
  fun m hm ↦ .inl ⟨w, by rwa [h]⟩

/-- A worker that is done with a message has the rest of its burst before it. -/
theorem pending_resume (d : Held) : d.resume.pending = (Pc.handle d).pending := by
  cases d <;> rfl

/-- A worker takes an item out of its mailbox. -/
private theorem OnTrail.pop {c : Config H} {n : Net H} {p : Mbuf} (hn : OnTrail c n p) {w : Core}
    {i : Item} {q : List Item} (hpc : n.pc w = .dequeue) (hm : n.mailbox w = i :: q) :
    OnTrail c (popItem n w i q) p := by
  refine hn.moved rfl rfl rfl ?_ ?_ (by rw [hpc]; rfl) rfl rfl rfl .inl
  · intro m hmi
    rw [List.mem_singleton.mp hmi]
    exact holds_mailbox n w i (by rw [hm]; exact List.mem_cons_self)
  · intro v j hj
    apply holds_mailbox n v
    by_cases hv : v = w
    · subst hv
      rw [hm]
      apply List.mem_cons_of_mem
      simpa [popItem] using hj
    · simpa [popItem, hv] using hj

/-- A worker puts an item into a mailbox. -/
private theorem OnTrail.push {c : Config H} {n : Net H} {p : Mbuf} (hn : OnTrail c n p)
    {w dest : Core} {i : Item} {d : Held} (hpc : n.pc w = .enqueue dest i d) :
    OnTrail c (pushItem n w dest i d) p := by
  refine hn.moved rfl rfl rfl ?_ ?_ (by rw [hpc]; cases d <;> rfl) rfl rfl rfl .inl
  · exact holds_of_nil (messageAt_resume n w d)
  · intro v j hj
    by_cases hv : v = dest
    · subst hv
      simp only [pushItem, Function.update_self, List.mem_append, List.mem_singleton] at hj
      rcases hj with hj | rfl
      · exact holds_mailbox n v j hj
      · exact holds_of_pc hpc _ (List.mem_singleton_self _)
    · apply holds_mailbox n v
      simpa [pushItem, hv] using hj

/-- A worker frees the packet that it handles. -/
private theorem OnTrail.drop {c : Config H} {n : Net H} {p : Mbuf} (hn : OnTrail c n p) {w : Core}
    {d : Held} (hpc : n.pc w = .handle d) : OnTrail c (dropPacket n w d) p := by
  refine hn.moved rfl rfl rfl ?_ (holds_mailbox n) ?_ rfl rfl rfl ?_
  · exact holds_of_nil (messageAt_resume n w d)
  · rw [hpc, pending_resume]
  · intro h
    rcases List.mem_append.mp h with h | h
    · exact .inl h
    · right
      refine ⟨n.message w d, holds_of_pc hpc _ (List.mem_singleton_self _), ?_⟩
      exact (List.mem_singleton.mp h).symm

/-- A worker copies the message that it handles to a free item. -/
private theorem OnTrail.copy {c : Config H} {n : Net H} {p : Mbuf} (hn : OnTrail c n p)
    {w dest : Core} {i : Item} {d : Held} (hpc : n.pc w = .handle d) :
    OnTrail c (copyPacket n w dest i d) p := by
  refine hn.quiet (fun v hv ↦ hv) rfl id .inl ?_ ?_
  · intro m hm hmp
    rcases holds_copy hm with rfl | hold
    · exact ⟨n.message w d, holds_of_pc hpc _ (List.mem_singleton_self _), hmp, rfl⟩
    · exact ⟨m, hold, hmp, rfl⟩
  · intro v hv
    have hpend : (Pc.enqueue dest i d).pending = (n.pc w).pending := by
      rw [hpc]
      cases d <;> rfl
    change p ∈ (Function.update n.pc w (.enqueue dest i d) v).pending at hv
    rwa [pending_update hpend] at hv

/-- A worker transmits the packet that it handles. -/
private theorem OnTrail.send {c : Config H} {n : Net H} {p : Mbuf} (hn : OnTrail c n p) {w : Core}
    {d : Held} {e : ActionTableEntry H} (hpc : n.pc w = .handle d)
    (hlast : c.Last (n.message w d).actionId)
    (hi' : PacketInvariant (complete (transmitPacket (n.called (callOf n w d e)) w d) w d)) :
    OnTrail c (complete (transmitPacket (n.called (callOf n w d e)) w d) w d) p := by
  have hr : (complete (transmitPacket (n.called (callOf n w d e)) w d) w d).hist.received =
      n.hist.received := by
    rw [complete_received, transmitPacket, Net.store_hist]
    rfl
  have hcalls : (complete (transmitPacket (n.called (callOf n w d e)) w d) w d).hist.calls =
      n.hist.calls ++ [callOf n w d e] := by
    rw [complete_calls, transmitPacket, Net.store_hist]
    rfl
  have htr : (complete (transmitPacket (n.called (callOf n w d e)) w d) w d).hist.transmitted =
      n.hist.transmitted ++ [(callOf n w d e).m] := by
    rw [complete_transmitted, transmitPacket, Net.store_hist, Net.called_message]
    rfl
  by_cases hx : (callOf n w d e).m = p
  · subst hx
    exact hn.transmit hi' hpc rfl rfl hlast hr hcalls
      (by rw [htr]; exact List.mem_append_right _ (List.mem_singleton_self _))
  · apply hn.other hx hr hcalls
    · rw [htr]
      intro h
      exact (List.mem_append.mp h).resolve_right fun h ↦ hx (List.mem_singleton.mp h).symm
    · rw [complete_freed, transmitPacket, Net.store_hist]
      rfl
    · intro u
      rw [pending_complete (by simpa [transmitPacket] using hpc), transmitPacket, Net.store_pc]
      rfl
    · intro m hm
      refine (holds_store (holds_complete hm)).imp (fun h ↦ ?_) id
      rw [h, Net.called_message]
      rfl

/-- A worker runs the action of a network function that leads on. -/
private theorem OnTrail.serve {c : Config H} {n : Net H} {p : Mbuf} (hn : OnTrail c n p) {w : Core}
    {d : Held} {e : ActionTableEntry H} {s : Fin STATE_NUM} {st : State H} {path : Int}
    (hpc : n.pc w = .handle d) (hnext : c.Next (n.message w d).actionId path)
    (hi' : PacketInvariant ((ranAction n w d e s st).store w d
      { n.message w d with path, actionId := path })) :
    OnTrail c ((ranAction n w d e s st).store w d
      { n.message w d with path, actionId := path }) p := by
  by_cases hx : (callOf n w d e).m = p
  · subst hx
    apply hn.act hi' hpc (Net.store_pc ..) rfl rfl hnext
    · rw [Net.store_hist]
      rfl
    · rw [Net.store_hist]
      rfl
    · exact Net.message_store ..
  · apply hn.other hx
    · rw [Net.store_hist]
      rfl
    · rw [Net.store_hist]
      rfl
    · rw [Net.store_hist]
      exact id
    · rw [Net.store_hist]
      rfl
    · intro u
      rw [Net.store_pc]
      rfl
    · intro m hm
      refine (holds_store hm).imp (fun h ↦ ?_) id
      rw [h]
      rfl

/-- Every event of the workers keeps every packet on its trail. -/
theorem OnTrail.taken {c : Config H} {n n' : Net H} {ev : Event} {p : Mbuf}
    (hn : OnTrail c n p) (hs : SameRoutes c n.config) (hp : c.PathsInTable)
    (hi' : PacketInvariant n') (ht : Taken n ev n') (hev : ev.IsWork) : OnTrail c n' p := by
  cases ht with
  | move w pc h =>
    refine hn.moved rfl rfl rfl ?_ (holds_mailbox n) ?_ rfl rfl rfl .inl
    · rcases h with ⟨-, rfl | rfl⟩ | ⟨-, -, rfl | rfl⟩ | ⟨-, rfl⟩ <;> exact holds_of_nil rfl
    · rcases h with ⟨h, rfl | rfl⟩ | ⟨h, -, rfl | rfl⟩ | ⟨h, rfl⟩ <;> rw [h] <;> rfl
  | pop w i q hpc hm => exact hn.pop hpc hm
  | begin w x rest hpc => exact hn.begin hs hpc
  | transmit w d e v hpc he hc ha hst =>
    obtain ⟨e', he', ha', -⟩ := hs.exists_entry he
    exact hn.send hpc ⟨e', he', ha'.trans ha⟩ hi'
  | act w d e f s st path hpc he hc ha hst hf => exact hn.serve hpc (hs.next he ha hst hf) hi'
  | actEnd w d e f s st hpc he hc ha hst hf =>
    have hend := hp _ _ (hs.next he ha hst hf)
    simp [idx?] at hend
  | relay w i e dest hpc he hc hl hd =>
    refine hn.moved rfl rfl rfl ?_ (holds_mailbox n) (by rw [hpc]; rfl) rfl rfl rfl .inl
    intro m hm
    exact holds_of_pc hpc m hm
  | push w dest i d hpc => exact hn.push hpc
  | retry => exact hn
  | rxBurst w pkts hpc hpk => exact hn.receive hpk
  | drop w d e hpc => exact hn.drop hpc
  | copy w d e dest i hpc => exact hn.copy hpc
  | command => exact hev.elim
  | quit =>
    refine hn.quiet (fun v hv ↦ hv) rfl id .inl (fun m hm hmp ↦ ⟨m, ?_, hmp, rfl⟩) fun v hv ↦ hv
    exact hm

/-! ### Runs -/

/-- What every event of the workers keeps. -/
structure Routed (c : Config H) (n : Net H) : Prop where
  same : SameRoutes c n.config
  packets : PacketInvariant n
  trail : ∀ p, OnTrail c n p

/-- Every event of the workers keeps the routes and every packet on its trail. -/
theorem Routed.next {c : Config H} {n n' : Net H} {ev : Event} (hn : Routed c n)
    (hk : c.KeepsPaths) (hp : c.PathsInTable) (hev : ev.IsWork) (h : step n ev = some n') :
    Routed c n' := by
  have ht := step_taken h
  have hi' := hn.packets.next (hn.same.pathsValid hp ev) h
  exact ⟨hn.same.taken hk ht hev, hi', fun p ↦ (hn.trail p).taken hn.same hp hi' ht hev⟩

/-- Launched workers have routed everything they received, which is nothing. -/
theorem routed_launch (c : Config H) (launched : Core → Bool) (size : Nat) (mem : Item → Message)
    (scratch : Core → Message) : Routed c (launch c launched size mem scratch) := by
  refine ⟨.refl c, packetInvariant_launch c launched size mem scratch, fun p ↦ ?_⟩
  have hpc (w : Core) : (launch c launched size mem scratch).pc w = .top ∨
      (launch c launched size mem scratch).pc w = .idle := by
    simp only [launch]
    split
    · exact .inl rfl
    · exact .inr rfl
  refine ⟨fun m hm _ ↦ ?_, fun w hw ↦ ?_, fun _ ↦ rfl, fun h ↦ ?_, fun h ↦ ?_⟩
  · rcases hm with ⟨w, hw⟩ | ⟨w, i, hi, -⟩
    · rcases hpc w with h | h <;> rw [h] at hw <;> exact absurd hw List.not_mem_nil
    · exact absurd hi List.not_mem_nil
  · rcases hpc w with h | h <;> rw [h] at hw <;> exact absurd hw List.not_mem_nil
  · exact absurd h List.not_mem_nil
  · exact absurd h List.not_mem_nil

/-- A run of the workers keeps every packet on its trail. -/
theorem Routed.run {c : Config H} {n n' : Net H} {es : List Event} (hn : Routed c n)
    (hk : c.KeepsPaths) (hp : c.PathsInTable) (hes : ∀ ev ∈ es, ev.IsWork)
    (h : Base.run step n es = some n') : Routed c n' :=
  run_invariant_along (fun _ _ _ hm hev hs ↦ hm.next hk hp hev hs) hn (along_of_forall hes n) h

/-- In every run of the workers, every packet is on its trail. -/
theorem routed_run {c : Config H} (hk : c.KeepsPaths) (hp : c.PathsInTable)
    (launched : Core → Bool) (size : Nat) (mem : Item → Message) (scratch : Core → Message)
    {es : List Event} {n : Net H} (hes : ∀ ev ∈ es, ev.IsWork)
    (h : run step (launch c launched size mem scratch) es = some n) : Routed c n :=
  (routed_launch c launched size mem scratch).run hk hp hes h

end Nflambda.Runtime
