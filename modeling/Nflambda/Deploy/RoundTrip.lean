import Nflambda.Base.Binary64
import Nflambda.Deploy.Transport
import Nflambda.Runtime.CliSafety

/-!
# Commands decode to what was encoded

Library `Deploy`. For every command helper of
`src/director/nflambda/platform.py:95–166`, what the runtime does with the bytes
it sends, in terms of the helper's arguments.
-/

namespace Nflambda.Deploy

open Nflambda.Base Nflambda.Runtime Nflambda.Director

variable {H : Type}

/-- A word written out in the code of a helper. -/
private theorem isWord_literal {s : String} (h : s ∈ ["parameter", "rss_reta_config", "rss",
    "create", "install_simple_path", "data_state", "control_frequency", "data_complexity",
    "create_packet_out", "migrate", "first_action", "init", "run"]) :
    IsWord s.toList ∧ s.toList.length ≤ 20 := by
  simp only [List.mem_cons, List.not_mem_nil, or_false] at h
  rcases h with rfl | rfl | rfl | rfl | rfl | rfl | rfl | rfl | rfl | rfl | rfl | rfl | rfl <;>
    exact ⟨⟨by simp, by simp [IsWordChar, isDelimiter]⟩, by decide⟩

/-- A short word from which `atoi` reads a number. -/
structure Reads (text : String) (i : Int) : Prop where
  word : IsWord text.toList
  length : text.toList.length ≤ 60
  value : atoi text = i

/-- A printed `int` reads as itself. -/
theorem reads_toString {i : Int} (h : IsInt i) : Reads (toString i) i :=
  ⟨(isWord_toString h).1, (isWord_toString h).2.trans (by decide), atoi_toString h⟩

/-- A number reads as the digits at its start. -/
theorem reads_toDigits {n : Nat} (hn : n < 10 ^ 9) {rest : List Char}
    (hrest : ∀ x ∈ rest.head?, x.isDigit = false) (hchars : ∀ x ∈ rest, IsNumberChar x)
    (hl : rest.length ≤ 50) : Reads (String.ofList (Nat.toDigits 10 n ++ rest)) n where
  word := by
    rw [String.toList_ofList]
    refine ⟨by simp, ?_⟩
    intro x hx
    rcases List.mem_append.mp hx with hx | hx
    · exact isWordChar_of_isDigit (Nat.isDigit_of_mem_toDigits (by decide) (by decide) hx)
    · rcases hchars x hx with hx | hx
      · exact isWordChar_of_isDigit hx
      · exact (by simp [IsWordChar, isDelimiter] : ∀ x ∈ ['.', 'e', '-', '+'], IsWordChar x) x hx
  length := by
    have hd : (Nat.toDigits 10 n).length ≤ 10 :=
      (Nat.length_toDigits_le_iff (by decide) (by decide)).mpr (by omega)
    rw [String.toList_ofList, List.length_append]
    omega
  value := atoi_toDigits ⟨by omega, by omega⟩ hrest

/-- A command whose arguments are a literal and short words runs the branch that they select. -/
private theorem sendCommand_texts (c : Config H) (command key : String) (texts : List String)
    {k : CliCommand} (hsel : CliCommand.ofTokens (command :: key :: texts) = .ok k)
    (hc : command ∈ commandWords) (hk : IsWord key.toList ∧ key.toList.length ≤ 20)
    (ht : ∀ t ∈ texts, ∃ i, Reads t i) (hn : texts.length ≤ 11) :
    sendCommand c ⟨command, key :: texts⟩ =
      (k.exec c (command :: key :: texts)).map Prod.fst := by
  have h := sendCommand_eq_dispatch c ⟨command, key :: texts⟩ ((key :: texts).map String.toList)
    hc rfl
    (fun w hw ↦ by
      simp only [List.map_cons, List.mem_cons, List.mem_map] at hw
      rcases hw with rfl | ⟨t, hm, rfl⟩
      · exact ⟨hk.1, hk.2.trans (by decide)⟩
      · obtain ⟨i, hr⟩ := ht t hm
        exact ⟨hr.word, hr.length⟩)
    (by
      rw [List.length_map, List.length_cons]
      omega)
  have hid : ((key :: texts).map String.toList).map String.ofList = key :: texts := by
    simp [Function.comp_def]
  rw [h, hid, CliCommand.dispatch_of_choice hsel]

/-- A command whose arguments are a literal and printed numbers runs the branch that they select. -/
private theorem sendCommand_numbers (c : Config H) (command key : String) (numbers : List Int)
    {k : CliCommand}
    (hsel : CliCommand.ofTokens (command :: key :: numbers.map toString) = .ok k)
    (hc : command ∈ commandWords) (hk : IsWord key.toList ∧ key.toList.length ≤ 20)
    (hi : ∀ i ∈ numbers, IsInt i) (hn : numbers.length ≤ 11) :
    sendCommand c ⟨command, key :: numbers.map toString⟩ =
      (k.exec c (command :: key :: numbers.map toString)).map Prod.fst := by
  apply sendCommand_texts c command key _ hsel hc hk _ (by simpa using hn)
  intro t ht
  obtain ⟨i, hm, rfl⟩ := List.mem_map.mp ht
  exact ⟨i, reads_toString (hi i hm)⟩

private theorem num_of_reads {tokens : List String} {k : Nat} {text : String} {i : Int}
    (hk : tokens[k]? = some text) (hr : Reads text i) : num tokens k = .ok i := by
  unfold num tok
  rw [hk]
  change Except.ok (atoi text) = _
  rw [hr.value]

private theorem num_toString {tokens : List String} {k : Nat} {i : Int}
    (hk : tokens[k]? = some (toString i)) (hi : IsInt i) : num tokens k = .ok i :=
  num_of_reads hk (reads_toString hi)

private theorem ok_bind {α β : Type} (a : α) (f : α → Except Fault β) :
    (Except.ok a >>= f) = f a := rfl

private theorem map_bind {α β γ : Type} (g : β → γ) (x : Except Fault α)
    (f : α → Except Fault β) : (x >>= f).map g = x >>= fun a ↦ (f a).map g := by
  cases x with
  | error e => rfl
  | ok a => rfl

private theorem map_pure {α β : Type} (g : α → β) (a : α) :
    (pure a : Except Fault α).map g = pure (g a) := rfl

private theorem slot_val {n : Nat} (i : Fin n) : slot n (i.val : Int) = .ok i := by
  unfold slot
  rw [idx?_natCast _ i.isLt]

/-! ### What the runtime does with each command -/

/-- `configure_parameter` stores each of the eight values in the field of its meaning. -/
theorem sendCommand_configureParameter (c : Config H) (p : Parameter)
    (hp : ∀ e ∈ p.d, IsInt e.2) :
    sendCommand c (configureParameter p) = .ok { c with
      initStateParameter := { c.initStateParameter with
        randRange := p.get "rand_range"
        dataComplexity := p.get "data_complexity"
        controlComplexity := p.get "control_complexity"
        controlFrequency := p.get "control_frequency"
        executionId := p.get "execution_id"
        stateSize := p.get "state_size"
        dataStateSize := p.get "data_state"
        controlStateSize := p.get "control_state" } } := by
  have hi (k : String) (hk : k ∈ parameterKeys) : IsInt (p.get k) := by
    have hm : p.get k ∈ p.d.map Prod.snd := by
      rw [p.values]
      exact List.mem_map_of_mem hk
    obtain ⟨e, he, hv⟩ := List.mem_map.mp hm
    rw [← hv]
    exact hp e he
  have hargs : (configureParameter p).argumentList.map String.toList =
      ["parameter".toList, p.toString.toList] := rfl
  have h := sendCommand_eq_dispatch c (configureParameter p)
    ("parameter".toList :: parameterKeys.map (fun k ↦ decimalChars (p.get k)))
    (show "config" ∈ commandWords by decide)
    (by
      rw [hargs, Parameter.toList_toString p _ _ p.values, joinWords_nested]
      rfl)
    (fun w hw ↦ by
      rcases List.mem_cons.mp hw with rfl | hw
      · exact ⟨(isWord_literal (by decide)).1, (isWord_literal (by decide)).2.trans (by decide)⟩
      · obtain ⟨k, hk, rfl⟩ := List.mem_map.mp hw
        have ht := isWord_toString (hi k hk)
        rw [toList_toString_int] at ht
        exact ⟨ht.1, ht.2.trans (by decide)⟩)
    (by simp [parameterKeys])
  have hword (i : Int) : String.ofList (decimalChars i) = toString i := by
    rw [← toList_toString_int, String.ofList_toList]
  have hwords : ("parameter".toList :: parameterKeys.map (fun k ↦ decimalChars (p.get k))).map
      String.ofList = "parameter" :: parameterKeys.map (fun k ↦ toString (p.get k)) := by
    simp only [List.map_cons, List.map_map, String.ofList_toList, Function.comp_def, hword]
  rw [h, hwords]
  have hget (k : String) (hk : k ∈ parameterKeys) (i : Nat)
      (hpos : ("config" :: "parameter" :: parameterKeys.map (fun k ↦ toString (p.get k)))[i]? =
        some (toString (p.get k))) := num_toString hpos (hi k hk)
  have hsel : CliCommand.ofTokens ("config" :: "parameter" ::
      parameterKeys.map fun k ↦ toString (p.get k)) = .ok .configParameter := rfl
  change (dispatch c ("config" :: "parameter" :: _)).map Prod.fst = _
  rw [CliCommand.dispatch_of_choice hsel, CliCommand.exec, configParameter,
    hget "rand_range" (by decide) 2 rfl, hget "data_complexity" (by decide) 3 rfl,
    hget "control_complexity" (by decide) 4 rfl, hget "control_frequency" (by decide) 5 rfl,
    hget "execution_id" (by decide) 6 rfl,
    hget "state_size" (by decide) 7 rfl, hget "data_state" (by decide) 8 rfl,
    hget "control_state" (by decide) 9 rfl]
  rfl

/-- `install_simple_path` writes one slot of one state. -/
theorem sendCommand_installSimplePath (c : Config H) {s a p : Int} (hs : IsInt s) (ha : IsInt a)
    (hp : IsInt p) :
    sendCommand c (installSimplePath s a p) = (do
      let i ← slot STATE_NUM s
      let q ← slot 10 p
      return c.setState i
        { c.states i with simplePath := Function.update (c.states i).simplePath q a }) := by
  have h := sendCommand_numbers c "state" "install_simple_path" [s, a, p]
    (k := .stateInstallSimplePath) rfl (by decide)
    (isWord_literal (by decide)) (by simp [hs, ha, hp]) (by simp)
  refine h.trans ?_
  rw [CliCommand.exec, stateInstallSimplePath, num_toString rfl hs, num_toString rfl ha,
    num_toString rfl hp]
  simp only [ok_bind, map_bind, map_pure]

/-- `create_state` initialises a state from the parameters; the registration id is not used. -/
theorem sendCommand_createState (c : Config H) {r s : Int} (hr : IsInt r) (hs : IsInt s) :
    sendCommand c (createState r s) = (do
      let i ← slot STATE_NUM s
      return c.setState i (stateUpdate (c.states i) c.initStateParameter)) := by
  have h := sendCommand_numbers c "state" "create" [r, s]
    (k := .stateCreate) rfl (by decide)
    (isWord_literal (by decide)) (by simp [hr, hs]) (by simp)
  refine h.trans ?_
  rw [CliCommand.exec, stateCreate, num_toString rfl hs]
  simp only [ok_bind, map_bind, map_pure]

/-- `create_action` fills one entry of the action table. -/
theorem sendCommand_createAction (c : Config H) {r a s w : Int} (hr : IsInt r) (ha : IsInt a)
    (hs : IsInt s) (hw : IsInt w) :
    sendCommand c (createAction r a s w) = (do
      let i ← slot ACTION_TABLE_SIZE a
      let r ← slot 200 r
      return c.setEntry i
        { action := c.actionRegistration r
          state := stateRefOf s
          coreId := w
          pathInstanceNumber := fun _ ↦ 0
          path := fun _ _ ↦ -1 }) := by
  have h := sendCommand_numbers c "action" "create" [r, a, s, w]
    (k := .actionCreate) rfl (by decide)
    (isWord_literal (by decide)) (by simp [hr, ha, hs, hw]) (by simp)
  refine h.trans ?_
  rw [CliCommand.exec, actionCreate, num_toString rfl hr, num_toString rfl ha, num_toString rfl hs,
    num_toString rfl hw]
  simp only [ok_bind, map_bind, map_pure]

/-- `create_packet_out_action` fills one entry of the action table and prepares its worker. -/
theorem sendCommand_createPacketOutAction (c : Config H) {a w : Int} (ha : IsInt a)
    (hw : IsInt w) :
    sendCommand c (createPacketOutAction a w) = (do
      let i ← slot ACTION_TABLE_SIZE a
      let v ← slot 48 w
      let c := c.setEntry i
        { c.actionTable i with action := some .transmitPacket, coreId := w, state := .worker v }
      return c.setWorker v { c.workerList v with txb := true, lastAction := true }) := by
  have h := sendCommand_numbers c "action" "create_packet_out" [a, w]
    (k := .actionCreatePacketOut) rfl (by decide)
    (isWord_literal (by decide)) (by simp [ha, hw]) (by simp)
  refine h.trans ?_
  rw [CliCommand.exec, actionCreatePacketOut, num_toString rfl ha, num_toString rfl hw]
  simp only [ok_bind, map_bind, map_pure]

/-- `migrate_action` moves one entry of the action table. -/
theorem sendCommand_migrateAction (c : Config H) {a w : Int} (ha : IsInt a) (hw : IsInt w) :
    sendCommand c (migrateAction a w) = (do
      let i ← slot ACTION_TABLE_SIZE a
      return c.setEntry i { c.actionTable i with coreId := w }) := by
  have h := sendCommand_numbers c "action" "migrate" [a, w]
    (k := .actionMigrate) rfl (by decide)
    (isWord_literal (by decide)) (by simp [ha, hw]) (by simp)
  refine h.trans ?_
  rw [CliCommand.exec, actionMigrate, num_toString rfl ha, num_toString rfl hw]
  simp only [ok_bind, map_bind, map_pure]

private theorem sendCommand_stateSet (c : Config H) (key : String)
    (set : State H → Int → State H) (reply : String) {s v : Int} (hs : IsInt s) (hv : IsInt v)
    {k : CliCommand} (hk : IsWord key.toList ∧ key.toList.length ≤ 20)
    (hsel : ∀ rest, CliCommand.ofTokens ("state" :: key :: rest) = .ok k)
    (hexec : ∀ tokens, k.exec c tokens = stateSet set reply c tokens) :
    sendCommand c (configureState key s v) = (do
      let i ← slot STATE_NUM s
      return c.setState i (set (c.states i) v)) := by
  have h := sendCommand_numbers c "state" key [s, v] (hsel _) (by decide) hk
    (by simp [hs, hv]) (by simp)
  refine h.trans ?_
  rw [hexec, stateSet, num_toString rfl hs, num_toString rfl hv]
  simp only [ok_bind, map_bind, map_pure]

/-- `configure_state` with `control_frequency`. -/
theorem sendCommand_controlFrequency (c : Config H) {s v : Int} (hs : IsInt s) (hv : IsInt v) :
    sendCommand c (configureState "control_frequency" s v) = (do
      let i ← slot STATE_NUM s
      return c.setState i { c.states i with controlFrequency := v }) := by
  exact sendCommand_stateSet c "control_frequency"
    (fun st v ↦ { st with controlFrequency := v }) "action control_frequency done\n" hs hv
    (isWord_literal (by decide)) (fun rest ↦ rfl) fun tokens ↦ rfl

/-- `configure_state` with `data_complexity`. -/
theorem sendCommand_dataComplexity (c : Config H) {s v : Int} (hs : IsInt s) (hv : IsInt v) :
    sendCommand c (configureState "data_complexity" s v) = (do
      let i ← slot STATE_NUM s
      return c.setState i { c.states i with dataComplexity := v }) := by
  exact sendCommand_stateSet c "data_complexity"
    (fun st v ↦ { st with dataComplexity := v }) "action data_complexity done\n" hs hv
    (isWord_literal (by decide)) (fun rest ↦ rfl) fun tokens ↦ rfl

/-- `configure_state` with `data_state`, which is also what `state_num_flows` sends. -/
theorem sendCommand_dataState (c : Config H) {s v : Int} (hs : IsInt s) (hv : IsInt v) :
    sendCommand c (configureState "data_state" s v) = (do
      let i ← slot STATE_NUM s
      return c.setState i { c.states i with randRange := v }) := by
  exact sendCommand_stateSet c "data_state"
    (fun st v ↦ { st with randRange := v }) "action data_state done\n" hs hv
    (isWord_literal (by decide)) (fun rest ↦ rfl) fun tokens ↦ rfl

/-- The positions `s, …, s + n - 1` of a table, as the loops of the commands run over them. -/
structure IsRange (size : Nat) (s n : Int) : Prop where
  start : 0 ≤ s
  stop : 0 ≤ s + n
  fits : s + n ≤ size

private theorem fill_of_isRange {α : Type} {k : Nat} (f : Fin k → α) (v : α) {s n : Int}
    (h : IsRange k s n) :
    fill f v s n.toNat = .ok (fun j ↦ if s ≤ j.val ∧ (j.val : Int) < s + n then v else f j) := by
  obtain ⟨h1, h2, h3⟩ := h
  by_cases hn : n ≤ 0
  · have hz : n.toNat = 0 := by omega
    have hf : (fun j : Fin k ↦ if s ≤ j.val ∧ (j.val : Int) < s + n then v else f j) = f := by
      funext j
      rw [if_neg (by omega)]
    rw [fill, hz, fill?_zero, hf]
  · obtain ⟨m, rfl⟩ := Int.eq_ofNat_of_zero_le h1
    have hf : (fun j : Fin k ↦ if m ≤ j.val ∧ j.val < m + n.toNat then v else f j) =
        fun j ↦ if (m : Int) ≤ j.val ∧ (j.val : Int) < m + n then v else f j := by
      funext j
      by_cases hj : m ≤ j.val ∧ j.val < m + n.toNat
      · rw [if_pos hj, if_pos (by omega)]
      · rw [if_neg hj, if_neg (by omega)]
    rw [fill, fill?_eq f v m n.toNat (by omega), hf]

/-- The worker is looked up in the loop over the buckets only. -/
private theorem sendCommand_configureRssReta_int {α : Type} [ToString α] (c : Config H) (x : α)
    {s n w a : Int} (hx : Reads (toString x) s) (hn : IsInt n) (hw : IsInt w) (ha : IsInt a)
    (hr : IsRange RSS_I_TABLE_SIZE s n) :
    sendCommand c (configureRssReta x n w a) =
      if 0 < n then do
        let w ← slot 48 w
        return { c with
          retaConf := fun b ↦
            if s ≤ b.val ∧ (b.val : Int) < s + n then (c.workerList w).queueId else c.retaConf b
          bucketToActionId := fun b ↦
            if s ≤ b.val ∧ (b.val : Int) < s + n then a else c.bucketToActionId b }
      else .ok c := by
  have h := sendCommand_texts c "config" "rss_reta_config"
    [toString x, toString n, toString w, toString a]
    (k := .configRssRetaConfig) rfl (by decide) (isWord_literal (by decide))
    (fun t ht ↦ by
      simp only [List.mem_cons, List.not_mem_nil, or_false] at ht
      rcases ht with rfl | rfl | rfl | rfl
      · exact ⟨s, hx⟩
      · exact ⟨n, reads_toString hn⟩
      · exact ⟨_, reads_toString hw⟩
      · exact ⟨a, reads_toString ha⟩) (by simp)
  obtain ⟨h1, h2, h3⟩ := hr
  have hsize : s + n ≤ 512 := h3
  have hmin := hn.1
  have hfirst : (BitVec.ofInt 32 s).toNat = s.toNat := by
    rw [BitVec.toNat_ofInt, Int.emod_eq_of_lt h1 (by omega)]
  have hlast : (BitVec.ofInt 32 (s + n)).toNat = (s + n).toNat := by
    rw [BitVec.toNat_ofInt, Int.emod_eq_of_lt h2 (by omega)]
  refine h.trans ?_
  rw [CliCommand.exec, configRssRetaConfig, num_of_reads rfl hx, num_toString rfl hn,
    num_toString rfl hw, num_toString rfl ha]
  simp only [ok_bind, hfirst, hlast]
  have hf {β : Type} (f : Fin RSS_I_TABLE_SIZE → β) (v : β) := fill_of_isRange f v ⟨h1, h2, h3⟩
  by_cases hlt : s.toNat < (s + n).toNat
  · have hcount : (s + n).toNat - s.toNat = n.toNat := by omega
    have hs : ((s.toNat : Nat) : Int) = s := by omega
    have hpos : 0 < n := by omega
    rw [if_pos hlt, if_pos hpos, hcount, hs, map_bind]
    simp only [hf, ok_bind, map_pure]
  · have hpos : ¬ 0 < n := by omega
    rw [if_neg hlt, if_neg hpos]
    rfl

/-- `configure_rss_reta` assigns a range of buckets to the queue of a worker. -/
theorem sendCommand_configureRssReta {α : Type} [ToString α] (c : Config H) (x : α) {s n a : Int}
    (w : Core) (hx : Reads (toString x) s) (hn : IsInt n) (ha : IsInt a)
    (hr : IsRange RSS_I_TABLE_SIZE s n) :
    sendCommand c (configureRssReta x n (w.val : Int) a) = .ok { c with
      retaConf := fun b ↦
        if s ≤ b.val ∧ (b.val : Int) < s + n then (c.workerList w).queueId else c.retaConf b
      bucketToActionId := fun b ↦
        if s ≤ b.val ∧ (b.val : Int) < s + n then a else c.bucketToActionId b } := by
  rw [sendCommand_configureRssReta_int c x hx hn (isInt_val (by decide) w) ha hr]
  split
  · rw [slot_val]
    rfl
  · next hpos =>
    have hb (b : Fin RSS_I_TABLE_SIZE) : ¬ (s ≤ b.val ∧ (b.val : Int) < s + n) := by omega
    simp only [if_neg (hb _)]

/-- `worker_first_action` lets a worker poll its queue, and maps a range of buckets to an
action. -/
private theorem sendCommand_workerFirstAction_int {α : Type} [ToString α] (c : Config H) (x : α)
    {s n w a : Int} (hx : Reads (toString x) s) (hn : IsInt n) (hw : IsInt w) (ha : IsInt a)
    (hr : IsRange RSS_I_TABLE_SIZE s n) :
    sendCommand c (workerFirstAction w a x n) = (do
      let w ← slot 48 w
      return c.setWorker w { c.workerList w with
        buckets := fun b ↦
          if s ≤ b.val ∧ (b.val : Int) < s + n then a else (c.workerList w).buckets b
        firstAction := true }) := by
  have h := sendCommand_texts c "worker" "first_action"
    [toString w, toString a, toString x, toString n]
    (k := .workerFirstAction) rfl (by decide) (isWord_literal (by decide))
    (fun t ht ↦ by
      simp only [List.mem_cons, List.not_mem_nil, or_false] at ht
      rcases ht with rfl | rfl | rfl | rfl
      · exact ⟨_, reads_toString hw⟩
      · exact ⟨a, reads_toString ha⟩
      · exact ⟨s, hx⟩
      · exact ⟨n, reads_toString hn⟩) (by simp)
  refine h.trans ?_
  rw [CliCommand.exec, Runtime.workerFirstAction, num_toString rfl hw, num_toString rfl ha,
    num_of_reads rfl hx, num_toString rfl hn]
  simp only [ok_bind, map_bind, map_pure, fill_of_isRange _ _ hr]

/-- For a worker of the runtime. -/
theorem sendCommand_workerFirstAction {α : Type} [ToString α] (c : Config H) (x : α)
    {s n a : Int} (w : Core) (hx : Reads (toString x) s) (hn : IsInt n) (ha : IsInt a)
    (hr : IsRange RSS_I_TABLE_SIZE s n) :
    sendCommand c (workerFirstAction (w.val : Int) a x n) =
      .ok (c.setWorker w { c.workerList w with
        buckets := fun b ↦
          if s ≤ b.val ∧ (b.val : Int) < s + n then a else (c.workerList w).buckets b
        firstAction := true }) := by
  rw [sendCommand_workerFirstAction_int c x hx hn (isInt_val (by decide) w) ha hr,
    slot_val]
  rfl

/-! ### When a command runs -/

/-- `create_state` runs for the positions of the state table. -/
theorem runs_createState (c : Config H) {r s : Int} (hr : IsInt r) (hs : IsInt s) :
    Runs (sendCommand c (createState r s)) ↔ InTable STATE_NUM s := by
  simp only [sendCommand_createState c hr hs, runs_slot_bind_iff, runs_pure, and_true,
    exists_eq_iff_inTable]

/-- `create_action` runs for the positions of the action table and of the registry. -/
theorem runs_createAction (c : Config H) {r a s w : Int} (hr : IsInt r) (ha : IsInt a)
    (hs : IsInt s) (hw : IsInt w) :
    Runs (sendCommand c (createAction r a s w)) ↔ InTable ACTION_TABLE_SIZE a ∧ InTable 200 r := by
  simp only [sendCommand_createAction c hr ha hs hw, runs_slot_bind_iff, runs_pure, and_true,
    exists_and_right, exists_eq_iff_inTable]

/-- `create_packet_out_action` runs for the positions of the action table and the workers. -/
theorem runs_createPacketOutAction (c : Config H) {a w : Int} (ha : IsInt a) (hw : IsInt w) :
    Runs (sendCommand c (createPacketOutAction a w)) ↔
      InTable ACTION_TABLE_SIZE a ∧ InTable 48 w := by
  simp only [sendCommand_createPacketOutAction c ha hw, runs_slot_bind_iff, runs_pure, and_true,
    exists_and_right, exists_eq_iff_inTable]

/-- `configure_rss_reta` runs for the workers, and for an empty range. -/
theorem runs_configureRssReta {α : Type} [ToString α] (c : Config H) (x : α) {s n w a : Int}
    (hx : Reads (toString x) s) (hn : IsInt n) (hw : IsInt w) (ha : IsInt a)
    (hr : IsRange RSS_I_TABLE_SIZE s n) :
    Runs (sendCommand c (configureRssReta x n w a)) ↔ (0 < n → InTable 48 w) := by
  rw [sendCommand_configureRssReta_int c x hx hn hw ha hr]
  split
  · next hpos =>
    simp only [runs_slot_bind_iff, runs_pure, and_true, exists_eq_iff_inTable]
    exact ⟨fun h _ ↦ h, fun h ↦ h hpos⟩
  · next hpos => exact iff_of_true (runs_ok c) fun h ↦ absurd h hpos

/-- `worker_first_action` runs for the workers. -/
theorem runs_workerFirstAction {α : Type} [ToString α] (c : Config H) (x : α) {s n w a : Int}
    (hx : Reads (toString x) s) (hn : IsInt n) (hw : IsInt w) (ha : IsInt a)
    (hr : IsRange RSS_I_TABLE_SIZE s n) :
    Runs (sendCommand c (workerFirstAction w a x n)) ↔ InTable 48 w := by
  simp only [sendCommand_workerFirstAction_int c x hx hn hw ha hr, runs_slot_bind_iff, runs_pure,
    and_true, exists_eq_iff_inTable]

/-- Commands run one after the other if each of them runs in every configuration. -/
theorem runs_sendCommands {commands : List Command}
    (h : ∀ command ∈ commands, ∀ c : Config H, Runs (sendCommand c command)) (c : Config H) :
    Runs (sendCommands c commands) := by
  induction commands generalizing c with
  | nil => exact ⟨c, rfl⟩
  | cons command commands ih =>
    obtain ⟨d, hd⟩ := h command List.mem_cons_self c
    rw [sendCommands_cons, hd]
    exact ih (fun command' hmem ↦ h command' (List.mem_cons_of_mem _ hmem)) d

/-- Commands that run one after the other run one by one. -/
theorem exists_runs_of_sendCommands {commands : List Command} {c : Config H}
    (hrun : Runs (sendCommands c commands)) {command : Command} (hmem : command ∈ commands) :
    ∃ d : Config H, Runs (sendCommand d command) := by
  induction commands generalizing c with
  | nil => cases hmem
  | cons first commands ih =>
    rw [sendCommands_cons, runs_bind_iff] at hrun
    obtain ⟨d, hstep, hrest⟩ := hrun
    rcases List.mem_cons.mp hmem with rfl | hmem
    · exact ⟨c, d, hstep⟩
    · exact ih hrest hmem

/-- The commands of `run` start the ports, hand the table to the NIC, and start the workers. -/
theorem sendCommands_run (c : Config H) :
    sendCommands c runCommands =
      .ok { c with nQueue := 24, nicReta := some c.retaConf, running := true } := by
  have hport (c : Config H) : sendCommand c startPort = .ok { c with nQueue := 24 } :=
    sendCommand_texts c "port" "init" [] (k := .portInit) rfl (by decide)
      (isWord_literal (by decide)) (by simp) (by simp)
  have hrss (c : Config H) : sendCommand c configureRss =
      .ok { c with nicReta := some c.retaConf } :=
    sendCommand_texts c "config" "rss" [] (k := .configRss) rfl (by decide)
      (isWord_literal (by decide)) (by simp) (by simp)
  have hrun (c : Config H) : sendCommand c workerRunCommand = .ok { c with running := true } :=
    sendCommand_texts c "worker" "run" [] (k := .workerRun) rfl (by decide)
      (isWord_literal (by decide)) (by simp) (by simp)
  rw [runCommands, sendCommands_cons, hport, ok_bind, sendCommands_cons, hrss, ok_bind,
    sendCommands_cons, hrun, ok_bind, sendCommands_nil]

/-! ### Requests -/

/-- The keys of `configure_state` that `cli_process` has a branch for, `cli.c:147–177`. -/
inductive StateKey where
  | controlFrequency
  | dataComplexity
  | dataState
  deriving DecidableEq, Repr

/-- The text of a key. -/
def StateKey.text : StateKey → String
  | .controlFrequency => "control_frequency"
  | .dataComplexity => "data_complexity"
  | .dataState => "data_state"

/-- The configuration commands of the director. Arguments that index a table are positions of
that table. -/
inductive Request where
  | configureParameter (parameter : Parameter)
  | configureRssReta (startingBucket numBucket : Int) (coreId : Core) (actionId : Int)
  | createState (registrationId : Int) (index : Fin STATE_NUM)
  | installSimplePath (stateId : Fin STATE_NUM) (actionId : Int) (localPathId : Fin 10)
  | configureState (key : StateKey) (stateId : Fin STATE_NUM) (val : Int)
  | stateNumFlows (stateId : Fin STATE_NUM) (numFlows : Int)
  | createAction (registrationId : Fin 200) (actionIndex : Fin ACTION_TABLE_SIZE)
      (stateIndex coreId : Int)
  | createPacketOutAction (actionIndex : Fin ACTION_TABLE_SIZE) (coreId : Core)
  | migrateAction (actionIndex : Fin ACTION_TABLE_SIZE) (coreId : Int)
  | workerFirstAction (workerId : Core) (actionId startingBucket numBucket : Int)

/-- What the director sends. -/
def Request.command : Request → Command
  | .configureParameter p => Director.configureParameter p
  | .configureRssReta s n w a => Director.configureRssReta s n w.val a
  | .createState r i => Director.createState r i.val
  | .installSimplePath s a p => Director.installSimplePath s.val a p.val
  | .configureState k s v => Director.configureState k.text s.val v
  | .stateNumFlows s v => Director.stateNumFlows s.val v
  | .createAction r a s w => Director.createAction r.val a.val s w
  | .createPacketOutAction a w => Director.createPacketOutAction a.val w.val
  | .migrateAction a w => Director.migrateAction a.val w
  | .workerFirstAction w a s n => Director.workerFirstAction w.val a s n

/-- All numbers are `int` values, and ranges of buckets lie in the table. -/
def Request.InRange : Request → Prop
  | .configureParameter p => ∀ e ∈ p.d, IsInt e.2
  | .configureRssReta s n _ a => IsInt s ∧ IsInt n ∧ IsInt a ∧ IsRange RSS_I_TABLE_SIZE s n
  | .createState r _ => IsInt r
  | .installSimplePath _ a _ => IsInt a
  | .configureState _ _ v => IsInt v
  | .stateNumFlows _ v => IsInt v
  | .createAction _ _ s w => IsInt s ∧ IsInt w
  | .createPacketOutAction _ _ => True
  | .migrateAction _ w => IsInt w
  | .workerFirstAction _ a s n => IsInt a ∧ IsInt s ∧ IsInt n ∧ IsRange RSS_I_TABLE_SIZE s n

/-- The branch of `cli_process` that is written for a command. -/
def Request.branch : Request → Config H → List String → Except Fault (Config H × Reply)
  | .configureParameter _ => configParameter
  | .configureRssReta .. => configRssRetaConfig
  | .createState .. => stateCreate
  | .installSimplePath .. => stateInstallSimplePath
  | .configureState .controlFrequency .. => stateControlFrequency
  | .configureState .dataComplexity .. => stateDataComplexity
  | .configureState .dataState .. => stateDataState
  | .stateNumFlows .. => stateDataState
  | .createAction .. => actionCreate
  | .createPacketOutAction .. => actionCreatePacketOut
  | .migrateAction .. => actionMigrate
  | .workerFirstAction .. => Runtime.workerFirstAction

/-- What the director means: every argument in the field it is for. -/
def Request.meant : Request → Config H → Config H
  | .configureParameter p, c =>
    { c with
      initStateParameter := { c.initStateParameter with
        randRange := p.get "rand_range"
        dataComplexity := p.get "data_complexity"
        controlComplexity := p.get "control_complexity"
        controlFrequency := p.get "control_frequency"
        executionId := p.get "execution_id"
        stateSize := p.get "state_size"
        dataStateSize := p.get "data_state"
        controlStateSize := p.get "control_state" } }
  | .configureRssReta s n w a, c =>
    { c with
      retaConf := fun b ↦
        if s ≤ b.val ∧ (b.val : Int) < s + n then (c.workerList w).queueId else c.retaConf b
      bucketToActionId := fun b ↦
        if s ≤ b.val ∧ (b.val : Int) < s + n then a else c.bucketToActionId b }
  | .createState _ i, c => c.setState i (stateUpdate (c.states i) c.initStateParameter)
  | .installSimplePath i a p, c =>
    c.setState i { c.states i with simplePath := Function.update (c.states i).simplePath p a }
  | .configureState .controlFrequency i v, c =>
    c.setState i { c.states i with controlFrequency := v }
  | .configureState .dataComplexity i v, c =>
    c.setState i { c.states i with dataComplexity := v }
  | .configureState .dataState i v, c => c.setState i { c.states i with randRange := v }
  | .stateNumFlows i v, c => c.setState i { c.states i with randRange := v }
  | .createAction r a s w, c =>
    c.setEntry a
      { action := c.actionRegistration r
        state := stateRefOf s
        coreId := w
        pathInstanceNumber := fun _ ↦ 0
        path := fun _ _ ↦ -1 }
  | .createPacketOutAction a w, c =>
    let c := c.setEntry a
      { c.actionTable a with
        action := some .transmitPacket, coreId := (w.val : Int), state := .worker w }
    c.setWorker w { c.workerList w with txb := true, lastAction := true }
  | .migrateAction a w, c => c.setEntry a { c.actionTable a with coreId := w }
  | .workerFirstAction w a s n, c =>
    c.setWorker w { c.workerList w with
      buckets := fun b ↦
        if s ≤ b.val ∧ (b.val : Int) < s + n then a else (c.workerList w).buckets b
      firstAction := true }

/-- The second word of a command. -/
def Request.key : Request → String
  | .configureParameter _ => "parameter"
  | .configureRssReta .. => "rss_reta_config"
  | .createState .. => "create"
  | .installSimplePath .. => "install_simple_path"
  | .configureState k .. => k.text
  | .stateNumFlows .. => "data_state"
  | .createAction .. => "create"
  | .createPacketOutAction .. => "create_packet_out"
  | .migrateAction .. => "migrate"
  | .workerFirstAction .. => "first_action"

/-- The numbers that a command carries, in order. -/
def Request.numbers : Request → List Int
  | .configureParameter p => parameterKeys.map p.get
  | .configureRssReta s n w a => [s, n, w.val, a]
  | .createState r i => [r, i.val]
  | .installSimplePath s a p => [s.val, a, p.val]
  | .configureState _ s v => [s.val, v]
  | .stateNumFlows s v => [s.val, v]
  | .createAction r a s w => [r.val, a.val, s, w]
  | .createPacketOutAction a w => [a.val, w.val]
  | .migrateAction a w => [a.val, w]
  | .workerFirstAction w a s n => [w.val, a, s, n]

/-- The words of a command: every value of a parameter is one of them. -/
def Request.tokens (r : Request) : List String :=
  r.command.command :: r.key :: r.numbers.map toString

/-- The runtime does what the director means. -/
theorem Request.sendCommand (c : Config H) (r : Request) (h : r.InRange) :
    Deploy.sendCommand c r.command = .ok (r.meant c) := by
  have hi {n : Nat} (hn : n ≤ 2 ^ 31) (i : Fin n) := isInt_val hn i
  cases r with
  | configureParameter p => exact sendCommand_configureParameter c p h
  | configureRssReta s n w a =>
    exact sendCommand_configureRssReta c s w (reads_toString h.1) h.2.1 h.2.2.1 h.2.2.2
  | createState r i =>
    refine (sendCommand_createState c h (hi (by decide) i)).trans ?_
    rw [slot_val]
    rfl
  | installSimplePath i a p =>
    refine (sendCommand_installSimplePath c (hi (by decide) i) h (hi (by decide) p)).trans ?_
    rw [slot_val, slot_val]
    rfl
  | configureState k i v =>
    cases k with
    | controlFrequency =>
      refine (sendCommand_controlFrequency c (hi (by decide) i) h).trans ?_
      rw [slot_val]
      rfl
    | dataComplexity =>
      refine (sendCommand_dataComplexity c (hi (by decide) i) h).trans ?_
      rw [slot_val]
      rfl
    | dataState =>
      refine (sendCommand_dataState c (hi (by decide) i) h).trans ?_
      rw [slot_val]
      rfl
  | stateNumFlows i v =>
    refine (sendCommand_dataState c (hi (by decide) i) h).trans ?_
    rw [slot_val]
    rfl
  | createAction r a s w =>
    refine (sendCommand_createAction c (hi (by decide) r) (hi (by decide) a) h.1 h.2).trans ?_
    rw [slot_val, slot_val]
    rfl
  | createPacketOutAction a w =>
    refine (sendCommand_createPacketOutAction c (hi (by decide) a) (hi (by decide) w)).trans ?_
    rw [slot_val, slot_val]
    rfl
  | migrateAction a w =>
    refine (sendCommand_migrateAction c (hi (by decide) a) h).trans ?_
    rw [slot_val]
    rfl
  | workerFirstAction w a s n =>
    exact sendCommand_workerFirstAction c s w (reads_toString h.2.1) h.2.2.1 h.1 h.2.2.2

/-- The words of a command reach the branch that is written for it. -/
theorem Request.dispatch (c : Config H) (r : Request) :
    Runtime.dispatch c r.tokens = r.branch c r.tokens := by
  cases r with
  | configureParameter => exact CliCommand.dispatch_of_choice (k := .configParameter) rfl c
  | configureRssReta => exact CliCommand.dispatch_of_choice (k := .configRssRetaConfig) rfl c
  | createState => exact CliCommand.dispatch_of_choice (k := .stateCreate) rfl c
  | installSimplePath => exact CliCommand.dispatch_of_choice (k := .stateInstallSimplePath) rfl c
  | configureState k =>
    cases k with
    | controlFrequency => exact CliCommand.dispatch_of_choice (k := .stateControlFrequency) rfl c
    | dataComplexity => exact CliCommand.dispatch_of_choice (k := .stateDataComplexity) rfl c
    | dataState => exact CliCommand.dispatch_of_choice (k := .stateDataState) rfl c
  | stateNumFlows => exact CliCommand.dispatch_of_choice (k := .stateDataState) rfl c
  | createAction => exact CliCommand.dispatch_of_choice (k := .actionCreate) rfl c
  | createPacketOutAction => exact CliCommand.dispatch_of_choice (k := .actionCreatePacketOut) rfl c
  | migrateAction => exact CliCommand.dispatch_of_choice (k := .actionMigrate) rfl c
  | workerFirstAction => exact CliCommand.dispatch_of_choice (k := .workerFirstAction) rfl c

private theorem Request.isInt_numbers (r : Request) (h : r.InRange) :
    ∀ i ∈ r.numbers, IsInt i := by
  have hi {n : Nat} (hn : n ≤ 2 ^ 31) (i : Fin n) := isInt_val hn i
  cases r with
  | configureParameter p =>
    intro i hm
    rw [Request.numbers, ← p.values] at hm
    obtain ⟨e, he, rfl⟩ := List.mem_map.mp hm
    exact h e he
  | configureRssReta s n w a =>
    simp only [Request.numbers, List.forall_mem_cons, List.not_mem_nil, false_imp_iff,
      implies_true, and_true]
    exact ⟨h.1, h.2.1, hi (by decide) w, h.2.2.1⟩
  | createState r i => simpa [Request.numbers] using ⟨h, hi (by decide) i⟩
  | installSimplePath s a p =>
    simpa [Request.numbers] using ⟨hi (by decide) s, h, hi (by decide) p⟩
  | configureState k s v => simpa [Request.numbers] using ⟨hi (by decide) s, h⟩
  | stateNumFlows s v => simpa [Request.numbers] using ⟨hi (by decide) s, h⟩
  | createAction r a s w =>
    simpa [Request.numbers] using ⟨hi (by decide) r, hi (by decide) a, h.1, h.2⟩
  | createPacketOutAction a w =>
    simpa [Request.numbers] using ⟨hi (by decide) a, hi (by decide) w⟩
  | migrateAction a w => simpa [Request.numbers] using ⟨hi (by decide) a, h⟩
  | workerFirstAction w a s n =>
    simpa [Request.numbers] using ⟨hi (by decide) w, h.1, h.2.1, h.2.2.1⟩

private theorem Request.isWord_key (r : Request) : IsWord r.key.toList := by
  have hk : r.key ∈ ["parameter", "rss_reta_config", "rss", "create", "install_simple_path",
      "data_state", "control_frequency", "data_complexity", "create_packet_out", "migrate",
      "first_action", "init", "run"] := by
    cases r with
    | configureState k => cases k <;> simp only [Request.key, StateKey.text] <;> decide
    | _ => simp only [Request.key]; decide
  exact (isWord_literal hk).1

/-- The text of a command is the line of its words. -/
theorem Request.toList_apply (r : Request) :
    r.command.apply.toList =
      joinWords ' ' r.command.command.toList
        ((r.key :: r.numbers.map toString).map String.toList) ++ ['\n'] := by
  rw [Command.toList_apply]
  cases r with
  | configureParameter p =>
    have hargs : (Request.configureParameter p).command.argumentList.map String.toList =
        ["parameter".toList, p.toString.toList] := rfl
    have hnum : decimalChars = fun i ↦ (toString i).toList := by
      funext i
      exact (toList_toString_int i).symm
    rw [hargs, Parameter.toList_toString p _ _ p.values, joinWords_nested, hnum]
    rfl
  | _ => rfl

/-- The tokenizer cuts a command into its words. -/
theorem Request.parse (r : Request) (h : r.InRange) :
    ∃ line, r.command.apply.toList = line ++ ['\n'] ∧
      parseTokenizeString line = some r.tokens := by
  refine ⟨_, r.toList_apply, ?_⟩
  have hfirst : r.command.command ∈ commandWords := by
    cases r with
    | configureParameter | configureRssReta => exact (by decide : "config" ∈ commandWords)
    | createState | installSimplePath | configureState | stateNumFlows =>
      exact (by decide : "state" ∈ commandWords)
    | createAction | createPacketOutAction | migrateAction =>
      exact (by decide : "action" ∈ commandWords)
    | workerFirstAction => exact (by decide : "worker" ∈ commandWords)
  rw [parseTokenizeString_joinWords _ _ (isWord_of_commandWords hfirst)]
  · simp [Request.tokens, Function.comp_def]
  · intro w hw
    obtain ⟨t, ht, rfl⟩ := List.mem_map.mp hw
    rcases List.mem_cons.mp ht with rfl | ht
    · exact r.isWord_key
    · obtain ⟨i, hi, rfl⟩ := List.mem_map.mp ht
      exact (isWord_toString (r.isInt_numbers h i hi)).1
  · have hlen : r.numbers.length ≤ 8 := by
      cases r <;> simp [Request.numbers, parameterKeys]
    rw [List.length_map, List.length_cons, List.length_map]
    omega

/-- The first word of a command is one of five, and the others are short. -/
theorem Request.words (r : Request) (h : r.InRange) :
    r.command.command ∈ commandWords ∧
      ∀ w ∈ (r.key :: r.numbers.map toString).map String.toList, IsWord w ∧ w.length ≤ 20 := by
  constructor
  · cases r with
    | configureParameter | configureRssReta => exact (by decide : "config" ∈ commandWords)
    | createState | installSimplePath | configureState | stateNumFlows =>
      exact (by decide : "state" ∈ commandWords)
    | createAction | createPacketOutAction | migrateAction =>
      exact (by decide : "action" ∈ commandWords)
    | workerFirstAction => exact (by decide : "worker" ∈ commandWords)
  · intro w hw
    obtain ⟨t, ht, rfl⟩ := List.mem_map.mp hw
    rcases List.mem_cons.mp ht with rfl | ht
    · refine ⟨r.isWord_key, ?_⟩
      cases r with
      | configureState k => cases k <;> simp only [Request.key, StateKey.text] <;> decide
      | _ => simp only [Request.key]; decide
    · obtain ⟨i, hi, rfl⟩ := List.mem_map.mp ht
      exact isWord_toString (r.isInt_numbers h i hi)

/-- Every configuration command decodes to what was encoded: its bytes are cut into its words,
the words reach the branch that is written for it, and the branch does what is meant. -/
theorem request_decodes (c : Config H) (r : Request) (h : r.InRange) :
    (∃ line, r.command.apply.toList = line ++ ['\n'] ∧
      parseTokenizeString line = some r.tokens) ∧
    Runtime.dispatch c r.tokens = r.branch c r.tokens ∧
    dataEventHandle c [] r.command.apply.toList = .ok (r.meant c, []) :=
  ⟨r.parse h, r.dispatch c, dataEventHandle_of_sendCommand (r.sendCommand c h)⟩

/-- A range of buckets decodes. -/
theorem request_decodes_reta :
    dataEventHandle (Config.zeroed ()) []
        (Request.configureRssReta 256 256 3 (-7)).command.apply.toList =
      .ok ((Request.configureRssReta 256 256 3 (-7)).meant (Config.zeroed ()), []) :=
  (request_decodes (Config.zeroed ()) (.configureRssReta 256 256 3 (-7))
    ⟨⟨by decide, by decide⟩, ⟨by decide, by decide⟩, ⟨by decide, by decide⟩,
      ⟨by decide, by decide, by decide⟩⟩).2.2

end Nflambda.Deploy
