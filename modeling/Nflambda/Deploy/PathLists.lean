import Mathlib.Data.List.Induction
import Nflambda.Base.Padded
import Nflambda.Director.Merge
import Nflambda.Runtime.Dispatch

/-!
# The path lists of an action

Library `Deploy`. Source `state install_path`, `src/runtime/cli.c:121–135`, and
`Action_instance_execution.add_path`, `src/director/em/nf_model.py:376–408`. Both keep up to 24
instances for each of 10 paths. The runtime stores the number of instances apart from the list.
-/

namespace Nflambda.Deploy

open Nflambda.Base Nflambda.Runtime Nflambda.Director

/-! ### The director -/

/-- `path_list` of a new `Action_instance_execution`, `nf_model.py:379–384`. -/
def newPathList : List (List Int) := List.replicate 10 (List.replicate 24 (-1))

/-- `Action_instance_execution.add_path`, `nf_model.py:405–408`. -/
def addPath (pathList : List (List Int)) (pathId actionId : Int) :
    Except PyError (List (List Int)) :=
  match pyIdx? pathList.length pathId with
  | none => .error .index
  | some p =>
    match pathList[p].idxOf? (-1) with
    | none => .error .value
    | some index => .ok (pathList.set p (pathList[p].set index actionId))

/-- Calls of `add_path` after one another. -/
def addPaths (pathList : List (List Int)) (calls : List (Int × Int)) :
    Except PyError (List (List Int)) :=
  calls.foldlM (fun pathList call ↦ addPath pathList call.1 call.2) pathList

/-- A call that is accepted places the action in its row. -/
theorem addPath_ofFn {rows : Fin 10 → List Int} {p : Fin 10} {actionId : Int}
    {pathList : List (List Int)} (h : addPath (List.ofFn rows) p.val actionId = .ok pathList) :
    pathList = List.ofFn (Function.update rows p (placeFirst (-1) (rows p) actionId)) := by
  have hlen : (List.ofFn rows).length = 10 := List.length_ofFn
  unfold addPath at h
  rw [pyIdx?_natCast p.val (by rw [hlen]; exact p.isLt)] at h
  dsimp only at h
  have hlt : p.val < (List.ofFn rows).length := by
    rw [hlen]
    exact p.isLt
  have hrow : (List.ofFn rows)[p.val] = rows p := by rw [List.getElem_ofFn]
  simp only [Fin.getElem_fin, hrow] at h
  cases hidx : (rows p).idxOf? (-1) with
  | none =>
    rw [hidx] at h
    cases h
  | some index =>
    rw [hidx] at h
    cases h
    rw [ofFn_update, placeFirst, hidx]

variable {H : Type}

/-! ### The runtime -/

/-- Lines that are executed after one another. -/
def executeLines (c : Config H) (lines : List (List Char)) : Except Fault (Config H) :=
  lines.foldlM (fun c line ↦ (cliProcess c line).map Prod.fst) c

/-- What `state install_path` makes of an entry, `cli.c:125–131`. -/
def withPath (e : ActionTableEntry H) (p : Fin MAXIMUM_PATH) (path : Int) : ActionTableEntry H :=
  { e with
    path := Function.update e.path p (installInRow (e.path p) path)
    pathInstanceNumber := Function.update e.pathInstanceNumber p (e.pathInstanceNumber p + 1) }

/-- What one line does. -/
theorem executed_installPath {c c' : Config H} {line : List Char}
    (hline : CliCommand.ofLine line = .ok .stateInstallPath)
    (h : executeLines c [line] = .ok c') :
    ∃ (j : Fin ACTION_TABLE_SIZE) (p : Fin MAXIMUM_PATH), number (strtok line) 2 = j.val ∧
      number (strtok line) 3 = p.val ∧
      c' = c.setEntry j (withPath (c.actionTable j) p (number (strtok line) 4)) := by
  obtain ⟨c₁, hc₁, hend⟩ := ok_of_bind (show (cliProcess c line).map Prod.fst >>= pure = _ from h)
  cases hend
  rw [CliCommand.cliProcess_eq, hline] at hc₁
  cases hexec : stateInstallPath c (strtok line) with
  | error e =>
    rw [show (Except.ok CliCommand.stateInstallPath >>= fun command ↦
      command.exec c (strtok line)) = stateInstallPath c (strtok line) from rfl, hexec] at hc₁
    cases hc₁
  | ok r =>
    rw [show (Except.ok CliCommand.stateInstallPath >>= fun command ↦
      command.exec c (strtok line)) = stateInstallPath c (strtok line) from rfl, hexec] at hc₁
    obtain rfl := Except.ok.inj hc₁
    obtain ⟨actionIndex, h2, hexec⟩ := ok_of_bind hexec
    obtain ⟨pathIndex, h3, hexec⟩ := ok_of_bind hexec
    obtain ⟨path, h4, hexec⟩ := ok_of_bind hexec
    obtain ⟨j, hj, hexec⟩ := ok_of_bind hexec
    obtain ⟨p, hp, hexec⟩ := ok_of_bind hexec
    cases hexec
    rw [number_of_ok h2, number_of_ok h3, number_of_ok h4]
    exact ⟨j, p, slot_eq_ok_iff.mp hj, slot_eq_ok_iff.mp hp, rfl⟩

/-- The entry that `action create` leaves behind. -/
theorem created_entry {c c' : Config H} {line : List Char} {reply : Reply}
    {i : Fin ACTION_TABLE_SIZE} (hline : CliCommand.ofLine line = .ok .actionCreate)
    (hi : number (strtok line) 3 = i.val) (h : cliProcess c line = .ok (c', reply)) :
    (c'.actionTable i).path = (fun _ _ ↦ -1) ∧
      (c'.actionTable i).pathInstanceNumber = fun _ ↦ 0 := by
  rw [CliCommand.cliProcess_eq, hline] at h
  obtain ⟨registrationId, -, h⟩ := ok_of_bind (show actionCreate c (strtok line) = _ from h)
  obtain ⟨actionIndex, h3, h⟩ := ok_of_bind h
  obtain ⟨stateIndex, -, h⟩ := ok_of_bind h
  obtain ⟨coreId, -, h⟩ := ok_of_bind h
  obtain ⟨j, hj, h⟩ := ok_of_bind h
  obtain ⟨r, -, h⟩ := ok_of_bind h
  cases h
  have hij : j = i := by
    have hj' := slot_eq_ok_iff.mp hj
    rw [← number_of_ok h3, hi] at hj'
    exact Fin.ext (by omega)
  subst hij
  rw [Config.setEntry_self]
  exact ⟨rfl, rfl⟩

/-- The ids that lines install in row `p` of entry `i`, in the order of the lines. -/
def installedIds (i : Fin ACTION_TABLE_SIZE) (lines : List (List Char)) (p : Fin MAXIMUM_PATH) :
    List Int :=
  lines.filterMap fun line ↦
    if number (strtok line) 2 = i.val ∧ number (strtok line) 3 = p.val then
      some (number (strtok line) 4)
    else none

/-- The calls of `add_path` with the arguments of the lines for entry `i`. -/
def pathCalls (i : Fin ACTION_TABLE_SIZE) (lines : List (List Char)) : List (Int × Int) :=
  lines.filterMap fun line ↦
    if number (strtok line) 2 = i.val then
      some (number (strtok line) 3, number (strtok line) 4)
    else none

/-- A row of an entry as a list. -/
def rowOf (e : ActionTableEntry H) (p : Fin MAXIMUM_PATH) : List Int := List.ofFn (e.path p)

theorem installInRow_eq (row : Fin MAXIMUM_PATH_INSTANCE → Int) (path : Int) :
    installInRow row path = placeIn (-1) row path := by
  unfold installInRow placeIn
  cases (List.finRange MAXIMUM_PATH_INSTANCE).find? fun i ↦ row i = -1 <;> rfl

/-- Row `p` receives an id. -/
theorem rowOf_withPath (e : ActionTableEntry H) (p : Fin MAXIMUM_PATH) (path : Int) :
    rowOf (withPath e p path) = Function.update (rowOf e) p (placeFirst (-1) (rowOf e p) path) := by
  funext q
  by_cases hq : q = p
  · subst hq
    show List.ofFn (Function.update e.path q (installInRow (e.path q) path) q) = _
    rw [Function.update_self, Function.update_self]
    rw [installInRow_eq, ofFn_placeIn]
    rfl
  · show List.ofFn (Function.update e.path p (installInRow (e.path p) path) q) = _
    rw [Function.update_of_ne hq, Function.update_of_ne hq]
    rfl

/-- The lists of an entry after ids have been installed in its rows: each row holds them as far as
there is room, and the number of instances counts them all. -/
structure Lists (e : ActionTableEntry H) (ids : Fin MAXIMUM_PATH → List Int) : Prop where
  rows : rowOf e = fun p ↦ padded MAXIMUM_PATH_INSTANCE (-1) (ids p)
  counts : e.pathInstanceNumber = fun p ↦ ((ids p).length : Int)

theorem installedIds_append (i : Fin ACTION_TABLE_SIZE) (lines rest : List (List Char))
    (p : Fin MAXIMUM_PATH) :
    installedIds i (lines ++ rest) p = installedIds i lines p ++ installedIds i rest p :=
  List.filterMap_append

/-- A line for entry `i` appends its id in its row. -/
theorem installedIds_snoc {i : Fin ACTION_TABLE_SIZE} {p : Fin MAXIMUM_PATH} {line : List Char}
    (hi : number (strtok line) 2 = i.val) (hp : number (strtok line) 3 = p.val)
    (lines : List (List Char)) :
    installedIds i (lines ++ [line]) = Function.update (installedIds i lines) p
      (installedIds i lines p ++ [number (strtok line) 4]) := by
  funext q
  rw [installedIds_append]
  by_cases hq : q = p
  · subst hq
    have hlast : installedIds i [line] q = [number (strtok line) 4] := by
      rw [installedIds, List.filterMap_cons, if_pos ⟨hi, hp⟩]
      rfl
    rw [Function.update_self, hlast]
  · have hne : ¬ (number (strtok line) 2 = i.val ∧ number (strtok line) 3 = q.val) := by
      rintro ⟨-, hq'⟩
      exact hq (Fin.ext (by omega))
    have hlast : installedIds i [line] q = [] := by
      rw [installedIds, List.filterMap_cons, if_neg hne]
      rfl
    rw [Function.update_of_ne hq, hlast, List.append_nil]

/-- A line for another entry. -/
theorem installedIds_snoc_of_ne {i j : Fin ACTION_TABLE_SIZE} {line : List Char}
    (hj : number (strtok line) 2 = j.val) (hne : j ≠ i) (lines : List (List Char)) :
    installedIds i (lines ++ [line]) = installedIds i lines := by
  funext q
  have hother : ¬ (number (strtok line) 2 = i.val ∧ number (strtok line) 3 = q.val) := by
    rintro ⟨hi, -⟩
    exact hne (Fin.ext (by omega))
  have hlast : installedIds i [line] q = [] := by
    rw [installedIds, List.filterMap_cons, if_neg hother]
    rfl
  rw [installedIds_append, hlast, List.append_nil]

/-- The lines install actions whose ids are not negative. -/
def InstallLines (lines : List (List Char)) : Prop :=
  ∀ line ∈ lines, CliCommand.ofLine line = .ok .stateInstallPath ∧ 0 ≤ number (strtok line) 4

/-- No id is taken for a free place. -/
theorem InstallLines.free_notMem {lines : List (List Char)} (h : InstallLines lines)
    (i : Fin ACTION_TABLE_SIZE) (p : Fin MAXIMUM_PATH) : -1 ∉ installedIds i lines p := by
  intro hmem
  obtain ⟨line, hline, heq⟩ := List.mem_filterMap.mp hmem
  split at heq
  · have hid := Option.some.inj heq
    have hnonneg := (h line hline).2
    omega
  · cases heq

theorem InstallLines.prefix {lines rest : List (List Char)} (h : InstallLines (lines ++ rest)) :
    InstallLines lines := fun line hline ↦ h line (List.mem_append_left rest hline)

/-- One installation, on the lists of an entry. -/
theorem Lists.withPath {e : ActionTableEntry H} {ids : Fin MAXIMUM_PATH → List Int}
    (h : Lists e ids) (hfree : ∀ p, -1 ∉ ids p) (p : Fin MAXIMUM_PATH) (path : Int) :
    Lists (withPath e p path) (Function.update ids p (ids p ++ [path])) where
  rows := by
    rw [rowOf_withPath, h.rows]
    funext q
    by_cases hq : q = p
    · subst hq
      rw [Function.update_self, Function.update_self]
      exact placeFirst_padded (hfree q) path
    · rw [Function.update_of_ne hq, Function.update_of_ne hq]
  counts := by
    funext q
    show Function.update e.pathInstanceNumber p (e.pathInstanceNumber p + 1) q = _
    rw [h.counts]
    by_cases hq : q = p
    · subst hq
      rw [Function.update_self, Function.update_self, List.length_append, List.length_singleton]
      rfl
    · rw [Function.update_of_ne hq, Function.update_of_ne hq]

theorem executeLines_append (c : Config H) (lines rest : List (List Char)) :
    executeLines c (lines ++ rest) =
      executeLines c lines >>= fun c' ↦ executeLines c' rest := by
  unfold executeLines
  rw [List.foldlM_append]

/-- The lists of an entry after any number of installations. -/
theorem lists_executeLines {c₀ : Config H} {i : Fin ACTION_TABLE_SIZE}
    (hpath : (c₀.actionTable i).path = fun _ _ ↦ -1)
    (hcount : (c₀.actionTable i).pathInstanceNumber = fun _ ↦ 0) (lines : List (List Char)) :
    ∀ c', InstallLines lines → executeLines c₀ lines = .ok c' →
      Lists (c'.actionTable i) (installedIds i lines) := by
  induction lines using List.reverseRecOn with
  | nil =>
    intro c' _ hrun
    cases hrun
    refine ⟨?_, hcount⟩
    funext p
    rw [rowOf, hpath]
    rfl
  | append_singleton lines line ih =>
    intro c' hlines hrun
    rw [executeLines_append] at hrun
    obtain ⟨c₁, hc₁, hlast⟩ := ok_of_bind hrun
    have hpre := hlines.prefix
    have hlists := ih c₁ hpre hc₁
    have hline := (hlines line (List.mem_append_right lines List.mem_cons_self)).1
    obtain ⟨j, p, hj, hp, rfl⟩ := executed_installPath hline hlast
    by_cases hji : j = i
    · subst hji
      rw [Config.setEntry_self, installedIds_snoc hj hp]
      exact hlists.withPath (hpre.free_notMem j) p _
    · rw [Config.setEntry_of_ne c₁ (Ne.symm hji), installedIds_snoc_of_ne hj hji]
      exact hlists

/-! ### Both sides -/

/-- Lines that are executed name entries and rows that exist. -/
theorem exists_row_of_executeLines {c₀ : Config H} (lines : List (List Char)) :
    ∀ c', InstallLines lines → executeLines c₀ lines = .ok c' →
      ∀ line ∈ lines, ∃ p : Fin MAXIMUM_PATH, number (strtok line) 3 = p.val := by
  induction lines using List.reverseRecOn with
  | nil => simp
  | append_singleton lines last ih =>
    intro c' hlines hrun line hmem
    rw [executeLines_append] at hrun
    obtain ⟨c₁, hc₁, hlast⟩ := ok_of_bind hrun
    rcases List.mem_append.mp hmem with hmem | hmem
    · exact ih c₁ hlines.prefix hc₁ line hmem
    · obtain rfl := List.mem_singleton.mp hmem
      have hline := (hlines line (List.mem_append_right lines List.mem_cons_self)).1
      obtain ⟨j, p, -, hp, -⟩ := executed_installPath hline hlast
      exact ⟨p, hp⟩

/-- The rows of the director after calls that it accepts. -/
theorem addPaths_eq {i : Fin ACTION_TABLE_SIZE} (lines : List (List Char)) :
    ∀ pathList, InstallLines lines →
      (∀ line ∈ lines, ∃ p : Fin MAXIMUM_PATH, number (strtok line) 3 = p.val) →
      addPaths newPathList (pathCalls i lines) = .ok pathList →
      pathList = List.ofFn fun p : Fin MAXIMUM_PATH ↦
        padded MAXIMUM_PATH_INSTANCE (-1) (installedIds i lines p) := by
  induction lines using List.reverseRecOn with
  | nil =>
    intro pathList _ _ h
    cases h
    rfl
  | append_singleton lines line ih =>
    intro pathList hlines hrows h
    have hpre := hlines.prefix
    have hrows' := fun l hl ↦ hrows l (List.mem_append_left [line] hl)
    obtain ⟨p, hp⟩ := hrows line (List.mem_append_right lines List.mem_cons_self)
    by_cases hi : number (strtok line) 2 = i.val
    · have hcalls : pathCalls i (lines ++ [line]) =
          pathCalls i lines ++ [(number (strtok line) 3, number (strtok line) 4)] := by
        simp [pathCalls, hi]
      rw [hcalls, addPaths, List.foldlM_append] at h
      cases hbefore : addPaths newPathList (pathCalls i lines) with
      | error e =>
        rw [addPaths] at hbefore
        rw [hbefore] at h
        cases h
      | ok rows =>
        have hlast : addPath rows (number (strtok line) 3) (number (strtok line) 4) =
            .ok pathList := by
          rw [addPaths] at hbefore
          rw [hbefore] at h
          simp only [List.foldlM_cons, List.foldlM_nil, bind_pure] at h
          exact h
        rw [ih rows hpre hrows' hbefore, hp] at hlast
        rw [addPath_ofFn hlast, installedIds_snoc hi hp]
        congr 1
        ext q : 1
        by_cases hq : q = p
        · subst hq
          rw [Function.update_self, Function.update_self]
          exact placeFirst_padded (hpre.free_notMem i q) _
        · rw [Function.update_of_ne hq, Function.update_of_ne hq]
    · have hcalls : pathCalls i (lines ++ [line]) = pathCalls i lines := by
        simp [pathCalls, hi]
      have hids : installedIds i (lines ++ [line]) = installedIds i lines := by
        ext q : 1
        simp [installedIds, hi]
      rw [hids]
      exact ih pathList hpre hrows' (hcalls ▸ h)

/-- The path lists of an entry after some lines: each row holds the installed ids in their order
and `-1` behind them, the number of instances is the number of the other elements and at most 24,
the director has the same rows if it accepts the same calls, and no line has changed a row that
was full, or its number of instances. -/
structure PathLists (i : Fin ACTION_TABLE_SIZE) (lines : List (List Char)) (c₀ c' : Config H) :
    Prop where
  rows : ∀ p, rowOf (c'.actionTable i) p =
    padded MAXIMUM_PATH_INSTANCE (-1) (installedIds i lines p)
  counts : ∀ p, (c'.actionTable i).pathInstanceNumber p =
    ((rowOf (c'.actionTable i) p).countP fun id ↦ id ≠ -1 : Nat)
  atMost : ∀ p, (c'.actionTable i).pathInstanceNumber p ≤ MAXIMUM_PATH_INSTANCE
  agrees : ∀ pathList, addPaths newPathList (pathCalls i lines) = .ok pathList →
    pathList = List.ofFn (rowOf (c'.actionTable i))
  full : ∀ before line after c₁ c₂ (p : Fin MAXIMUM_PATH), lines = before ++ line :: after →
    executeLines c₀ before = .ok c₁ → executeLines c₁ [line] = .ok c₂ →
    -1 ∉ rowOf (c₁.actionTable i) p →
    rowOf (c₂.actionTable i) p = rowOf (c₁.actionTable i) p ∧
      (c₂.actionTable i).pathInstanceNumber p = (c₁.actionTable i).pathInstanceNumber p

/-- Lists with at most 24 ids in each row are path lists, others are not. -/
theorem pathLists_iff_of_new {c₀ c' : Config H} {i : Fin ACTION_TABLE_SIZE}
    {lines : List (List Char)} (hpath : (c₀.actionTable i).path = fun _ _ ↦ -1)
    (hcount : (c₀.actionTable i).pathInstanceNumber = fun _ ↦ 0) (hlines : InstallLines lines)
    (hrun : executeLines c₀ lines = .ok c') :
    PathLists i lines c₀ c' ↔ ∀ p, (installedIds i lines p).length ≤ MAXIMUM_PATH_INSTANCE := by
  have hlists := lists_executeLines hpath hcount lines c' hlines hrun
  have hinstances : ∀ p, ((rowOf (c'.actionTable i) p).countP fun id ↦ id ≠ -1) =
      min MAXIMUM_PATH_INSTANCE (installedIds i lines p).length := by
    intro p
    rw [hlists.rows]
    exact countP_padded (hlines.free_notMem i p)
  have hcounts : ∀ p, (c'.actionTable i).pathInstanceNumber p =
      ((installedIds i lines p).length : Int) := congrFun hlists.counts
  constructor
  · intro h p
    have hp := h.counts p
    rw [hinstances, hcounts] at hp
    omega
  · intro h
    constructor
    · exact congrFun hlists.rows
    · intro p
      have hp := h p
      rw [hinstances, hcounts]
      omega
    · intro p
      have hp := h p
      rw [hcounts]
      omega
    · intro pathList hpathList
      rw [hlists.rows]
      exact addPaths_eq lines pathList hlines
        (exists_row_of_executeLines lines c' hlines hrun) hpathList
    · intro before line after c₁ c₂ p heq hbefore hlast hfull
      subst heq
      have hpre : InstallLines before := hlines.prefix
      have hlists₁ := lists_executeLines hpath hcount before c₁ hpre hbefore
      have hline := (hlines line (List.mem_append_right before List.mem_cons_self)).1
      obtain ⟨j, q, hj, hq, rfl⟩ := executed_installPath hline hlast
      have hlong : MAXIMUM_PATH_INSTANCE ≤ (installedIds i before p).length := by
        by_contra hshort
        apply hfull
        rw [hlists₁.rows]
        exact (mem_padded_iff (hpre.free_notMem i p)).mpr (by omega)
      by_cases hji : j = i
      · subst hji
        by_cases hqp : q = p
        · -- the row would hold one id too many
          subst hqp
          have hp := h q
          rw [← List.singleton_append, ← List.append_assoc, installedIds_append,
            installedIds_snoc hj hq, Function.update_self] at hp
          simp only [List.length_append, List.length_singleton] at hp
          omega
        · rw [Config.setEntry_self, rowOf_withPath, Function.update_of_ne (Ne.symm hqp)]
          exact ⟨rfl, Function.update_of_ne (Ne.symm hqp) ..⟩
      · rw [Config.setEntry_of_ne c₁ (Ne.symm hji)]
        exact ⟨rfl, rfl⟩

/-- After `action create`, any number of `state install_path` lines with non-negative ids that name
existing entries and rows leave proper path lists behind exactly when no row of the entry has
received more than 24 ids. The id that is one too many is dropped, but it is counted. -/
theorem path_lists_iff {c c₀ c' : Config H} {create : List Char} {reply : Reply}
    {i : Fin ACTION_TABLE_SIZE} {lines : List (List Char)}
    (hcreate : CliCommand.ofLine create = .ok .actionCreate)
    (hi : number (strtok create) 3 = i.val) (hcreated : cliProcess c create = .ok (c₀, reply))
    (hlines : InstallLines lines) (hrun : executeLines c₀ lines = .ok c') :
    PathLists i lines c₀ c' ↔ ∀ p, (installedIds i lines p).length ≤ MAXIMUM_PATH_INSTANCE := by
  obtain ⟨hpath, hcount⟩ := created_entry hcreate hi hcreated
  exact pathLists_iff_of_new hpath hcount hlines hrun

/-- The second of two computations that have a result. -/
private theorem exists_ok_of_bind {α β : Type} {x : Except Fault α} {f : α → Except Fault β} {a : α}
    (hx : x = .ok a) (h : (x.bind f).toOption.isSome = true) : ∃ b, f a = .ok b := by
  subst hx
  cases hf : f a with
  | error e =>
    rw [show (Except.ok a).bind f = f a from rfl, hf] at h
    cases h
  | ok b => exact ⟨b, rfl⟩

/-- Two installations in one row. -/
theorem path_lists_iff_two :
    let create := "action create 0 5 0 1".toList
    let lines := ["state install_path 5 2 7".toList, "state install_path 5 2 8".toList]
    ∃ c₀ c' : Config Unit, executeLines c₀ lines = .ok c' ∧
      cliProcess (Config.zeroed ()) create = .ok (c₀, .text "action create done\n") ∧
      (PathLists ⟨5, by decide⟩ lines c₀ c' ↔
        ∀ p, (installedIds ⟨5, by decide⟩ lines p).length ≤ MAXIMUM_PATH_INSTANCE) := by
  intro create lines
  have hcreated : ∃ c₀ : Config Unit,
      cliProcess (Config.zeroed ()) create = .ok (c₀, .text "action create done\n") := ⟨_, rfl⟩
  obtain ⟨c₀, h₀⟩ := hcreated
  have hruns : ((cliProcess (Config.zeroed ()) create).bind fun r ↦
      executeLines r.1 lines).toOption.isSome = true := by decide
  obtain ⟨c', hc'⟩ := exists_ok_of_bind h₀ hruns
  have hlines : InstallLines lines := by
    intro line h
    simp only [lines, List.mem_cons, List.not_mem_nil, or_false] at h
    rcases h with rfl | rfl <;> decide
  exact ⟨c₀, c', hc', h₀, path_lists_iff (by decide) (by decide) h₀ hlines hc'⟩

/-- The twenty-fifth id for a row is counted, but not stored. -/
theorem path_count_exceeds :
    let create := "action create 0 5 0 1".toList
    let lines := List.replicate 25 "state install_path 5 2 7".toList
    ∃ c₀ c' : Config Unit,
      cliProcess (Config.zeroed ()) create = .ok (c₀, .text "action create done\n") ∧
      executeLines c₀ lines = .ok c' ∧ ¬ PathLists ⟨5, by decide⟩ lines c₀ c' := by
  intro create lines
  have hcreated : ∃ c₀ : Config Unit,
      cliProcess (Config.zeroed ()) create = .ok (c₀, .text "action create done\n") := ⟨_, rfl⟩
  obtain ⟨c₀, h₀⟩ := hcreated
  have hruns : ((cliProcess (Config.zeroed ()) create).bind fun r ↦
      executeLines r.1 lines).toOption.isSome = true := by decide
  obtain ⟨c', hc'⟩ := exists_ok_of_bind h₀ hruns
  have hlines : InstallLines lines := by
    intro line h
    obtain rfl := List.eq_of_mem_replicate h
    decide
  obtain ⟨hpath, hcount⟩ := created_entry (i := ⟨5, by decide⟩) (by decide) (by decide) h₀
  have hids : installedIds ⟨5, by decide⟩ lines ⟨2, by decide⟩ = List.replicate 25 7 :=
    List.filterMap_replicate_of_some (by decide)
  refine ⟨c₀, c', h₀, hc', fun h ↦ ?_⟩
  have hle := (pathLists_iff_of_new hpath hcount hlines hc').mp h ⟨2, by decide⟩
  rw [hids, List.length_replicate] at hle
  exact absurd hle (by decide)

end Nflambda.Deploy
