import Nflambda.Base.Binary64
import Nflambda.Deploy.Effect

/-!
# Commands that keep the entries

Library `Deploy`. Only `action` commands change what the packet path reads of an action entry,
`src/runtime/cli.c:181–256`. A `config`, `state` or `worker` command with numbers as arguments is
never read as one, however long its line is: the rest of a line that does not fit the buffer of
`src/runtime/conn.c:201–252` consists of numbers.
-/

namespace Nflambda.Deploy

open Nflambda.Base Nflambda.Runtime Nflambda.Director

variable {H : Type}

/-! ### Runs of commands -/

/-- What every command keeps holds after all commands. -/
theorem sendCommands_invariant {P : Config H → Prop} {commands : List Command}
    (h : ∀ command ∈ commands, ∀ c c', sendCommand c command = .ok c' → P c → P c')
    {c c' : Config H} (hrun : sendCommands c commands = .ok c') (hc : P c) : P c' := by
  induction commands generalizing c with
  | nil =>
    cases hrun
    exact hc
  | cons command commands ih =>
    rw [sendCommands_cons] at hrun
    cases hstep : sendCommand c command with
    | error e =>
      rw [hstep] at hrun
      cases hrun
    | ok d =>
      rw [hstep] at hrun
      exact ih (fun command' hmem ↦ h command' (List.mem_cons_of_mem command hmem)) hrun
        (h command List.mem_cons_self c d hstep hc)

private theorem dataEventHandle_actionRegistration {s msgIn : List Char} {c : Config H}
    {r : Config H × List Char} (h : dataEventHandle c msgIn s = .ok r) :
    r.1.actionRegistration = c.actionRegistration := by
  induction s generalizing c msgIn with
  | nil =>
    cases h
    rfl
  | cons b s ih =>
    rw [dataEventHandle] at h
    split at h
    · cases hproc : cliProcess c (cString msgIn) with
      | error e =>
        rw [hproc] at h
        cases h
      | ok d =>
        rw [hproc] at h
        rw [ih h]
        exact cliProcess_actionRegistration hproc
    · split at h
      · exact ih h
      · exact ih h

/-- No sequence of commands changes the registered functions. -/
theorem sendCommands_actionRegistration {commands : List Command} {c c' : Config H}
    (h : sendCommands c commands = .ok c') : c'.actionRegistration = c.actionRegistration := by
  refine sendCommands_invariant (P := fun d ↦ d.actionRegistration = c.actionRegistration) ?_ h rfl
  intro command _ d d' hstep hd
  unfold sendCommand at hstep
  cases hread : dataEventHandle d [] command.apply.toList with
  | error e =>
    rw [hread] at hstep
    cases hstep
  | ok r =>
    rw [hread] at hstep
    cases hstep
    exact (dataEventHandle_actionRegistration hread).trans hd

/-! ### Commands with numbers -/

/-- A command that is no `action` command, with a word and numbers as arguments. -/
structure Numeric (command : Command) : Prop where
  first : command.command ∈ ["config", "state", "worker"]
  args : ∃ w rest, command.argumentList = w :: rest ∧ IsWord w.toList ∧ w.toList.length ≤ 1000 ∧
    ∀ v ∈ rest, ∀ x ∈ v.toList, IsNumberChar x

/-- A printed integer consists of number characters. -/
theorem isNumberChar_toString (i : Int) : ∀ x ∈ (toString i).toList, IsNumberChar x := by
  rw [toList_toString_int]
  exact forall_mem_decimalChars (fun _ h ↦ .inl h) (by decide) i

private theorem ne_of_isNumberChar {x : Char} (h : x = ' ' ∨ IsNumberChar x) :
    x ≠ '\n' ∧ x ≠ '\x00' ∧ x ≠ 'a' := by
  have hne : ∀ y : Char, y ≠ ' ' → ¬ IsNumberChar y → x ≠ y := by
    rintro y hblank hy rfl
    exact h.elim hblank hy
  exact ⟨hne _ (by decide) (by decide), hne _ (by decide) (by decide),
    hne _ (by decide) (by decide)⟩

/-- A text without the letter `a` has no token `action`. -/
private theorem head_strtok_of_plain {l : List Char} (h : ∀ x ∈ l, x ≠ 'a') :
    (strtok l).head? ≠ some "action" := by
  intro hhead
  obtain ⟨w, hw, heq⟩ := List.mem_map.mp (List.mem_of_mem_head? hhead)
  have ha : 'a' ∈ w := by
    have hchars := congrArg String.toList heq
    rw [String.toList_ofList] at hchars
    rw [hchars]
    decide
  exact h _ (mem_of_mem_splitOnP (List.mem_filter.mp hw).1 ha) rfl

/-- The first token of a line that starts with a word. -/
private theorem head_strtok_append {w rest : List Char} (hw : IsWord w) :
    (strtok (w ++ ' ' :: rest)).head? = some (String.ofList w) := by
  unfold strtok
  rw [List.splitOnP_append_cons_of_forall_mem (fun x hx ↦ (hw.chars x hx).1) ' ' rfl,
    List.filter_cons_of_pos (by simpa using hw.nonempty)]
  rfl

/-- The text of such a command: a short beginning, and then blanks and numbers. -/
private theorem Numeric.exists_text {command : Command} (h : Numeric command) : ∃ w tail,
    joinWords ' ' command.command.toList (command.argumentList.map String.toList) =
      (command.command.toList ++ ' ' :: w) ++ tail ∧
    (command.command.toList ++ ' ' :: w).length ≤ 1024 ∧ IsWord command.command.toList ∧
    IsWord w ∧ ∀ x ∈ tail, x = ' ' ∨ IsNumberChar x := by
  obtain ⟨w, rest, hargs, hw, hlen, hrest⟩ := h.args
  have hmem : command.command ∈ commandWords :=
    (by decide : ∀ s ∈ ["config", "state", "worker"], s ∈ commandWords) _ h.first
  have hshort : command.command.toList.length ≤ 10 :=
    (by decide : ∀ s ∈ ["config", "state", "worker"], s.toList.length ≤ 10) _ h.first
  refine ⟨w.toList, (rest.map String.toList).flatMap fun v ↦ ' ' :: v, ?_, ?_,
    isWord_of_commandWords hmem, hw, ?_⟩
  · simp [hargs, joinWords]
  · rw [List.length_append, List.length_cons]
    omega
  · intro x hx
    obtain ⟨v, hv, hx⟩ := List.mem_flatMap.mp hx
    obtain ⟨s, hs, rfl⟩ := List.mem_map.mp hv
    exact (List.mem_cons.mp hx).imp id (hrest s hs x)

/-- The line of such a command that is processed does not start with the token `action`. -/
private theorem head_strtok_numeric {first w tail l : List Char} (hfirst : IsWord first)
    (hne : String.ofList first ≠ "action") (hlen : (first ++ ' ' :: w).length ≤ 1024)
    (hw : IsWord w) (htail : ∀ x ∈ tail, x = ' ' ∨ IsNumberChar x)
    (hl : l = (first ++ ' ' :: w) ++ tail ∨
      ∃ k, 1024 < k ∧ l = ((first ++ ' ' :: w) ++ tail).drop k) :
    (strtok (cString l)).head? ≠ some "action" := by
  rcases hl with rfl | ⟨k, hk, rfl⟩
  · -- the line fits the buffer, so its first word is that of the command
    have hstring : cString ((first ++ ' ' :: w) ++ tail) = (first ++ ' ' :: w) ++ tail := by
      unfold cString
      rw [List.takeWhile_eq_self_iff]
      intro x hx
      rw [decide_eq_true_eq]
      rcases List.mem_append.mp hx with hx | hx
      · rcases List.mem_append.mp hx with hx | hx
        · exact (hfirst.chars x hx).2
        · rcases List.mem_cons.mp hx with rfl | hx
          · decide
          · exact (hw.chars x hx).2
      · exact (ne_of_isNumberChar (htail x hx)).2.1
    rw [hstring, List.append_assoc, List.cons_append, head_strtok_append hfirst]
    exact fun heq ↦ hne (Option.some.inj heq)
  · -- what is left of a longer line consists of numbers
    apply head_strtok_of_plain
    intro x hx
    have hdrop := List.takeWhile_subset _ hx
    rw [List.drop_append, List.drop_eq_nil_of_le (by omega), List.nil_append] at hdrop
    exact (ne_of_isNumberChar (htail x (List.mem_of_mem_drop hdrop))).2.2

/-- Such a command does not change the entries. -/
theorem Numeric.entryFields {command : Command} (h : Numeric command) {c c' : Config H}
    (hrun : sendCommand c command = .ok c') (i : Fin ACTION_TABLE_SIZE) :
    entryFields c' i = entryFields c i := by
  obtain ⟨w, tail, htext, hlen, hfirst, hw, htail⟩ := h.exists_text
  have hplain : ∀ x ∈ (command.command.toList ++ ' ' :: w) ++ tail, x ≠ '\n' := by
    intro x hx
    rcases List.mem_append.mp hx with hx | hx
    · rcases List.mem_append.mp hx with hx | hx
      · exact (isWordChar_plain (hfirst.chars x hx)).1
      · rcases List.mem_cons.mp hx with rfl | hx
        · decide
        · exact (isWordChar_plain (hw.chars x hx)).1
    · exact (ne_of_isNumberChar (htail x hx)).1
  have hne : String.ofList command.command.toList ≠ "action" := by
    rw [String.ofList_toList]
    exact (by decide : ∀ s ∈ ["config", "state", "worker"], s ≠ "action") _ h.first
  obtain ⟨l, hl, hcase⟩ := exists_processed c [] _ hplain (Nat.zero_le _)
  unfold sendCommand at hrun
  rw [Command.toList_apply, htext, hl] at hrun
  cases hproc : cliProcess c (cString l) with
  | error e =>
    rw [hproc] at hrun
    cases hrun
  | ok r =>
    rw [hproc] at hrun
    cases hrun
    refine cliProcess_entryFields hproc (head_strtok_numeric hfirst hne hlen hw htail ?_) i
    simpa using hcase

/-- Such commands do not change the entries. -/
theorem entryFields_of_numeric {commands : List Command}
    (h : ∀ command ∈ commands, Numeric command) {c c' : Config H}
    (hrun : sendCommands c commands = .ok c') (i : Fin ACTION_TABLE_SIZE) :
    entryFields c' i = entryFields c i :=
  sendCommands_invariant (P := fun d ↦ entryFields d i = entryFields c i)
    (fun command hmem _ _ hstep hd ↦ ((h command hmem).entryFields hstep i).trans hd) hrun rfl

end Nflambda.Deploy
