import Nflambda.Deploy.Session

/-!
# Sessions that finish

Library `Deploy`. The configuration commands of `NFlambda`, `src/director/nflambda/platform.py`, are
lines that fit the buffer of `src/runtime/conn.c`, and every branch of `src/runtime/cli.c:60–384`
that they reach answers them. So their sessions do not get stuck.
-/

namespace Nflambda.Deploy

open Nflambda.Base Nflambda.Runtime Nflambda.Director

variable {H ι : Type}

/-! ### Replies -/

/-- A command that succeeds prints a text that one `recv` takes. -/
def Replies (step : Except Fault (Config H × Reply)) : Prop :=
  ∀ c' reply, step = .ok (c', reply) →
    ∃ text, reply = .text text ∧ text.toList ≠ [] ∧ text.toList.length ≤ 1024

theorem replies_bind {α : Type} {x : Except Fault α} {f : α → Except Fault (Config H × Reply)}
    (h : ∀ a, Replies (f a)) : Replies (x >>= f) := by
  intro c' reply hstep
  obtain ⟨a, -, hf⟩ := ok_of_bind hstep
  exact h a c' reply hf

theorem replies_pure {c : Config H} {text : String} (hne : text.toList ≠ [])
    (hle : text.toList.length ≤ 1024) : Replies (pure (c, .text text)) := by
  intro c' reply hstep
  cases hstep
  exact ⟨text, rfl, hne, hle⟩

theorem replies_stateSet {set : State H → Int → State H} {text : String}
    (hne : text.toList ≠ []) (hle : text.toList.length ≤ 1024) (c : Config H)
    (tokens : List String) : Replies (stateSet set text c tokens) := by
  unfold stateSet
  iterate 3 apply replies_bind; intro
  exact replies_pure hne hle

/-- The branch of a request replies. -/
theorem Request.replies (r : Request) (c : Config H) (tokens : List String) :
    Replies (r.branch c tokens) := by
  cases r with
  | configureParameter =>
    unfold Request.branch configParameter
    iterate 8 apply replies_bind; intro
    exact replies_pure (by decide) (by decide)
  | configureRssReta =>
    unfold Request.branch configRssRetaConfig
    iterate 4 apply replies_bind; intro
    dsimp only
    split
    · iterate 3 apply replies_bind; intro
      exact replies_pure (by decide) (by decide)
    · exact replies_pure (by decide) (by decide)
  | createState =>
    unfold Request.branch stateCreate
    iterate 2 apply replies_bind; intro
    exact replies_pure (by decide) (by decide)
  | installSimplePath =>
    unfold Request.branch stateInstallSimplePath
    iterate 5 apply replies_bind; intro
    exact replies_pure (by decide) (by decide)
  | configureState k =>
    cases k with
    | controlFrequency =>
      unfold Request.branch stateControlFrequency
      apply replies_stateSet <;> decide
    | dataComplexity =>
      unfold Request.branch stateDataComplexity
      apply replies_stateSet <;> decide
    | dataState =>
      unfold Request.branch stateDataState
      apply replies_stateSet <;> decide
  | stateNumFlows =>
    unfold Request.branch stateDataState
    apply replies_stateSet <;> decide
  | createAction =>
    unfold Request.branch actionCreate
    iterate 6 apply replies_bind; intro
    exact replies_pure (by decide) (by decide)
  | createPacketOutAction =>
    unfold Request.branch actionCreatePacketOut
    iterate 4 apply replies_bind; intro
    exact replies_pure (by decide) (by decide)
  | migrateAction =>
    unfold Request.branch actionMigrate
    iterate 3 apply replies_bind; intro
    exact replies_pure (by decide) (by decide)
  | workerFirstAction =>
    unfold Request.branch Runtime.workerFirstAction
    iterate 6 apply replies_bind; intro
    exact replies_pure (by decide) (by decide)

/-! ### Lines -/

theorem Request.commandLine_eq (r : Request) :
    commandLine r.command = joinWords ' ' r.command.command.toList
      ((r.key :: r.numbers.map toString).map String.toList) := by
  have h := r.toList_apply
  rw [Command.toList_apply, List.append_cancel_right_eq] at h
  exact h

theorem Request.plain (r : Request) (h : r.InRange) :
    ∀ x ∈ commandLine r.command, x ≠ '\n' ∧ x ≠ '\x00' := by
  obtain ⟨hfirst, hwords⟩ := r.words h
  have hf := isWord_of_commandWords hfirst
  rw [r.commandLine_eq]
  exact forall_mem_joinWords ⟨by decide, by decide⟩ (fun x hx ↦ isWordChar_plain (hf.chars x hx))
    fun w hw x hx ↦ isWordChar_plain ((hwords w hw).1.chars x hx)

/-- A request is one line that the buffer holds. -/
theorem Request.oneLine (r : Request) (h : r.InRange) : OneLine r.command := by
  refine ⟨fun hmem ↦ (r.plain h _ hmem).1 rfl, ?_⟩
  obtain ⟨hfirst, hwords⟩ := r.words h
  have hflen : r.command.command.toList.length ≤ 20 := by
    simp only [commandWords, List.mem_cons, List.not_mem_nil, or_false] at hfirst
    rcases hfirst with h | h | h | h | h <;> rw [h] <;> decide
  have hnumbers : r.numbers.length ≤ 8 := by
    cases r <;> simp [Request.numbers, parameterKeys]
  have hlen := length_joinWords_le ' ' hflen fun w hw ↦ (hwords w hw).2
  rw [List.length_map, List.length_cons, List.length_map] at hlen
  rw [r.commandLine_eq]
  show _ ≤ 1024
  omega

/-- A request reaches its branch. -/
theorem Request.cliProcess (r : Request) (h : r.InRange) (c : Config H) :
    Runtime.cliProcess c (cString (commandLine r.command)) = r.branch c r.tokens := by
  have hstring : cString (commandLine r.command) = commandLine r.command := by
    unfold cString
    rw [List.takeWhile_eq_self_iff]
    intro x hx
    simpa using (r.plain h x hx).2
  obtain ⟨hfirst, hwords⟩ := r.words h
  have hnumbers : r.numbers.length ≤ 8 := by
    cases r <;> simp [Request.numbers, parameterKeys]
  rw [hstring, r.commandLine_eq, cliProcess_joinWords c _ _ (isWord_of_commandWords hfirst)
    (fun w hw ↦ (hwords w hw).1)
    (by rw [List.length_map, List.length_cons, List.length_map]; omega)
    (isComment_commandWords hfirst _), String.ofList_toList, List.map_map]
  rw [← r.dispatch c, Request.tokens]
  simp only [Function.comp_def, String.ofList_toList, List.map_id']

/-- A request is executed as it is meant, and answered. -/
theorem Request.execute (dump : Config H → List Char → List Char) (r : Request) (h : r.InRange)
    (c : Config H) :
    ∃ out, Deploy.execute dump c r.command = .ok (r.meant c, out) ∧ out ≠ [] ∧
      out.length ≤ 1024 := by
  have hsend := r.sendCommand c h
  rw [sendCommand_eq_execute dump c (r.oneLine h), Deploy.execute, msgHandle, r.cliProcess h c]
    at hsend
  rw [Deploy.execute, msgHandle, r.cliProcess h c]
  cases hbranch : r.branch c r.tokens with
  | error e =>
    rw [hbranch] at hsend
    cases hsend
  | ok q =>
    rw [hbranch] at hsend
    obtain ⟨text, htext, hne, hle⟩ := r.replies c r.tokens q.1 q.2 hbranch
    have hmeant : q.1 = r.meant c := by
      change Except.ok q.1 = _ at hsend
      exact Except.ok.inj hsend
    refine ⟨text.toList, ?_, hne, hle⟩
    rw [← hmeant]
    show Except.ok (q.1, q.2.bytes _) = _
    rw [htext]
    rfl

theorem Request.answered (dump : Config H → List Char → List Char) (r : Request)
    (h : r.InRange) : Answered dump r.command := by
  intro c c' out hexec
  obtain ⟨out', hexec', hne, hle⟩ := r.execute dump h c
  rw [hexec'] at hexec
  cases hexec
  exact ⟨hne, hle⟩

/-- Sessions in which the configuration commands are sent finish, if no client is read in the middle
of a line of another one, and the greeting and each answer come in one piece: no run is longer than
the bytes and calls allow, as long as a client is not finished another event is possible, and in
the end all commands of all clients have been executed, those of each client in its order. -/
theorem sessions_finish [DecidableEq ι] [Fintype ι] (dump : Config H → List Char → List Char)
    (clients : ι → List Request) (hrange : ∀ i, ∀ r ∈ clients i, r.InRange) (c : Config H)
    {es : List (Session.Event ι)} {s : Session ι H}
    (hrun : run (Session.step dump) (Session.start c fun i ↦ (clients i).map Request.command) es =
      some s)
    (hgood : Along (Session.step dump) (fun s e ↦ s.InTurn e ∧ s.AtOnce e)
      (Session.start c fun i ↦ (clients i).map Request.command) es) :
    es.length ≤
      ∑ i, (2 + ((clients i).map fun r ↦ 2 * r.command.apply.toList.length + 2).sum) ∧
    ((∀ i, s.Finished i) ∨ Session.GoesOn dump s) ∧
    ((∀ i, s.Finished i) → ∃ order : List (ι × Command),
      sendCommands c (order.map Prod.snd) = .ok s.config ∧
      ∀ i, shareOf i order = (clients i).map Request.command) := by
  have hrequest : ∀ i, ∀ x ∈ (clients i).map Request.command,
      ∃ r : Request, r.InRange ∧ r.command = x := by
    intro i x hx
    obtain ⟨r, hr, rfl⟩ := List.mem_map.mp hx
    exact ⟨r, hrange i r hr, rfl⟩
  have hfits : ∀ i, ∀ x ∈ (clients i).map Request.command, OneLine x := by
    intro i x hx
    obtain ⟨r, hr, rfl⟩ := hrequest i x hx
    exact r.oneLine hr
  have hanswered : ∀ i, ∀ x ∈ (clients i).map Request.command, Answered dump x := by
    intro i x hx
    obtain ⟨r, hr, rfl⟩ := hrequest i x hx
    exact r.answered dump hr
  have hok : ∀ i, ∀ x ∈ (clients i).map Request.command, ∀ c : Config H,
      ∃ q, Deploy.execute dump c x = .ok q := by
    intro i x hx c
    obtain ⟨r, hr, rfl⟩ := hrequest i x hx
    obtain ⟨out, hout, -⟩ := r.execute dump hr c
    exact ⟨_, hout⟩
  obtain ⟨order, answers, pending, h, hl⟩ := lockstep_of_run hfits hanswered hrun hgood
  refine ⟨?_, ?_, fun hfinished ↦ ?_⟩
  · have hlen := run_length_le (Φ := fun s : Session ι H ↦ ∑ i, (s.peers i).toCome)
      (fun _ _ _ hstep ↦ Session.toCome_lt hstep) hrun
    refine (Nat.le_of_add_right_le hlen).trans (le_of_eq ?_)
    apply Finset.sum_congr rfl
    intro i _
    simp [Peer.toCome, Session.start, Function.comp_def]
  · by_cases hfinished : ∀ i, s.Finished i
    · exact .inl hfinished
    · obtain ⟨i, hi⟩ := not_forall.mp hfinished
      obtain hgo | ⟨j, hturn, hfaulty⟩ := Session.goesOn_or_faulty h hl hi
      · exact .inr hgo
      · exact absurd hfaulty (Session.not_faulty h hfits hok hturn)
  · have hshare : ∀ i, shareOf i order = (clients i).map Request.command := by
      intro i
      obtain ⟨hphase, hcommands⟩ := hfinished i
      have hsent := (h.owes i).sent
      have hnone : pending i = [] := by
        have hi := hl i
        generalize pending i = own, shareOf i ((order.map Prod.fst).zip answers) = written at hi
        cases hi with
        | calling _ hphase' =>
          rw [hphase'] at hphase
          cases hphase
        | new | welcomed | idle | answered => rfl
      rwa [hnone, hcommands, List.append_nil, List.append_nil] at hsent
    refine ⟨order, ?_, hshare⟩
    have hmem : ∀ x ∈ order.map Prod.snd, OneLine x := by
      intro x hx
      obtain ⟨⟨i, y⟩, hy, rfl⟩ := List.mem_map.mp hx
      apply hfits i y
      rw [← hshare i]
      exact mem_shareOf.mpr hy
    rw [sendCommands_eq_runAll dump c hmem, h.executed]
    rfl

/-- Two clients that move one action each. -/
def movers (b : Bool) : List Request :=
  if b then [.migrateAction 3 5] else [.migrateAction 4 7]

/-- Both are served. -/
def moversRun : List (Session.Event Bool) :=
  [.accept true, .recv true 5, .call true, .transmit true 9, .poll true, .accept false,
    .recv false 5, .call false, .transmit false 19, .transmit true 10, .poll true, .recv true 22,
    .poll false, .recv false 22]

/-- Their session finishes with both commands executed. -/
theorem sessions_finish_movers :
    ∃ s, run (Session.step fun _ _ ↦ [])
        (Session.start (Config.zeroed ()) fun i ↦ (movers i).map Request.command) moversRun =
          some s ∧
      ∃ order : List (Bool × Command),
        sendCommands (Config.zeroed ()) (order.map Prod.snd) = .ok s.config ∧
        ∀ i, shareOf i order = (movers i).map Request.command := by
  have hrun := (Option.some_get (x := run (Session.step fun _ _ ↦ [])
    (Session.start (Config.zeroed ()) fun i ↦ (movers i).map Request.command) moversRun)
    (by decide +kernel)).symm
  have hrange : ∀ i, ∀ r ∈ movers i, r.InRange := by
    intro i r hr
    cases i with
    | true =>
      obtain rfl := List.mem_singleton.mp hr
      exact ⟨by decide, by decide⟩
    | false =>
      obtain rfl := List.mem_singleton.mp hr
      exact ⟨by decide, by decide⟩
  have hfinish := sessions_finish (fun _ _ ↦ []) movers hrange (Config.zeroed ()) hrun
    (by decide +kernel)
  refine ⟨_, hrun, hfinish.2.2 fun i ↦ ?_⟩
  cases i <;> exact ⟨by decide +kernel, by decide +kernel⟩

end Nflambda.Deploy
