import Mathlib.Data.List.FinRange
import PicoShell.Lib.Slots

/-! `variable_store.c` and the commands `set`, `print` and `echo`. -/

namespace PicoShell.Memory

/-- `struct variable_store`, of `VAR_STORE_SIZE` entries; a free one has null pointers. -/
abbrev VariableStore (size : ℕ) := Slots (Fin size) String String

variable {size : ℕ}

def vstoreInit (size : ℕ) : VariableStore size := fun _ => none

namespace VariableStore

variable (store : VariableStore size)

def findVar (var : String) : Option (Fin size) :=
  (List.finRange size).find? fun i => (store i).any fun entry => entry.1 = var

def findFree : Option (Fin size) := (List.finRange size).find? fun i => (store i).isNone

def vstoreGet (key : String) : Option String :=
  match store.findVar key with
  | some i => (store i).map Prod.snd
  | none => none

def vstoreSet (var value : String) : VariableStore size :=
  match store.findVar var with
  | some i => store.put i var value
  | none =>
    match store.findFree with
    | some i => store.put i var value
    | none => store

end VariableStore

/-- `set`: the returned code and the store. -/
def set (store : VariableStore size) (var value : String) : ℤ × VariableStore size :=
  (0, store.vstoreSet var value)

/-- `badcommandVariableDoesNotExist`: what is printed and the returned code. -/
def badcommandVariableDoesNotExist : String × ℤ :=
  ("Bad command: Variable does not exist in shell memory\n", 6)

def print (store : VariableStore size) (var : String) : String × ℤ :=
  match store.vstoreGet var with
  | none => badcommandVariableDoesNotExist
  | some value => (value ++ "\n", 0)

def echo (store : VariableStore size) (var : String) : String × ℤ :=
  match var.toList with
  | '$' :: name => print store (String.ofList name)
  | _ => (var ++ "\n", 0)

theorem echo_dollar (store : VariableStore size) (var : String) :
    echo store ("$" ++ var) = print store var := by
  simp [echo, String.toList_append]

/-- The store after the `set` commands that were given since the shell started. -/
def runSets (size : ℕ) (cmds : List (String × String)) : VariableStore size :=
  cmds.foldl (fun store cmd => (set store cmd.1 cmd.2).2) (vstoreInit size)

theorem runSets_concat (size : ℕ) (cmds : List (String × String)) (cmd : String × String) :
    runSets size (cmds ++ [cmd]) = (runSets size cmds).vstoreSet cmd.1 cmd.2 := by
  unfold runSets
  rw [List.foldl_append]
  rfl

namespace VariableStore

variable {store : VariableStore size} {var key value : String} {i : Fin size}

theorem findVar_some (h : store.findVar var = some i) : ∃ value, store i = some (var, value) := by
  have hany := List.find?_some h
  obtain ⟨entry, hentry, hvar⟩ := (Option.any_eq_true _ _).mp hany
  exact ⟨entry.2, by rw [hentry, ← of_decide_eq_true hvar]⟩

theorem findVar_none (h : store.findVar var = none) (value : String) : ¬ store.Holds var value := by
  intro ⟨i, hi⟩
  have := List.find?_eq_none.mp h i (List.mem_finRange i)
  rw [hi] at this
  simp at this

theorem findFree_none (h : store.findFree = none) (i : Fin size) : store i ≠ none := by
  have := List.find?_eq_none.mp h i (List.mem_finRange i)
  simpa using this

theorem vstoreGet_eq_some (h : store.Unique) :
    store.vstoreGet key = some value ↔ store.Holds key value := by
  unfold vstoreGet
  cases hfind : store.findVar key with
  | none =>
    constructor
    · intro hv
      contradiction
    · intro hv
      exact absurd hv (findVar_none hfind value)
  | some i =>
    obtain ⟨v, hi⟩ := findVar_some hfind
    simp only [hi, Option.map_some, Option.some.injEq]
    constructor
    · intro hv
      exact ⟨i, by rw [hi, hv]⟩
    · intro hv
      exact h.value ⟨i, hi⟩ hv

/-- The variable gets a slot, or there is none and nothing happens. -/
theorem vstoreSet_cases (store : VariableStore size) (var value : String) :
    (∃ i, store.Open i var ∧ store.vstoreSet var value = store.put i var value) ∨
    ((∀ i, store i ≠ none) ∧ (∀ v, ¬ store.Holds var v) ∧ store.vstoreSet var value = store) := by
  unfold vstoreSet
  cases hfind : store.findVar var with
  | some i => exact .inl ⟨i, .inl (findVar_some hfind), rfl⟩
  | none =>
    cases hfree : store.findFree with
    | some i =>
      have hi : store i = none := by simpa using List.find?_some hfree
      exact .inl ⟨i, .inr ⟨hi, findVar_none hfind⟩, rfl⟩
    | none => exact .inr ⟨findFree_none hfree, findVar_none hfind, rfl⟩

theorem unique_vstoreSet (h : store.Unique) (var value : String) :
    (store.vstoreSet var value).Unique := by
  rcases vstoreSet_cases store var value with ⟨i, hopen, heq⟩ | ⟨-, -, heq⟩
  · rw [heq]
    exact h.put hopen
  · rwa [heq]

/-- With a slot for the variable, the store changes as a map does. -/
theorem vstoreGet_vstoreSet (h : store.Unique) (hroom : var ∈ store.keys ∨ store.keys.card < size) :
    (store.vstoreSet var value).vstoreGet = Function.update store.vstoreGet var (some value) := by
  funext key
  apply Option.ext
  intro v
  rw [vstoreGet_eq_some (unique_vstoreSet h var value)]
  rcases vstoreSet_cases store var value with ⟨i, hopen, heq⟩ | ⟨hfull, hnew, -⟩
  · rw [heq, Slots.holds_put h hopen, Function.update_apply]
    split_ifs
    · rw [Option.some.injEq, eq_comm]
    · exact (vstoreGet_eq_some h).symm
  · rcases hroom with hmem | hlt
    · obtain ⟨v, hv⟩ := Slots.mem_keys.mp hmem
      exact absurd hv (hnew v)
    · obtain ⟨i, hi⟩ := Slots.exists_free h (by rwa [Fintype.card_fin])
      exact absurd hi (hfull i)

end VariableStore

theorem unique_runSets (size : ℕ) (cmds : List (String × String)) : (runSets size cmds).Unique := by
  induction cmds using List.reverseRecOn with
  | nil => exact fun i j k v w hi => by contradiction
  | append_singleton cmds cmd ih =>
    rw [runSets_concat]
    exact VariableStore.unique_vstoreSet ih cmd.1 cmd.2

def assigned (cmds : List (String × String)) : String → Option String :=
  cmds.foldl (fun vars cmd => Function.update vars cmd.1 (some cmd.2)) fun _ => none

def names (cmds : List (String × String)) : Finset String := (cmds.map Prod.fst).toFinset

variable {cmds before after : List (String × String)} {cmd : String × String} {var value : String}

theorem assigned_concat (cmds : List (String × String)) (cmd : String × String) :
    assigned (cmds ++ [cmd]) = Function.update (assigned cmds) cmd.1 (some cmd.2) := by
  unfold assigned
  rw [List.foldl_append]
  rfl

theorem names_concat (cmds : List (String × String)) (cmd : String × String) :
    names (cmds ++ [cmd]) = insert cmd.1 (names cmds) := by
  ext x
  simp [names]

theorem mem_names : var ∈ names cmds ↔ assigned cmds var ≠ none := by
  induction cmds using List.reverseRecOn with
  | nil => simp [names, assigned]
  | append_singleton cmds cmd ih =>
    rw [names_concat, Finset.mem_insert, ih, assigned_concat, Function.update_apply]
    split_ifs with hvar
    · simp [hvar]
    · simp [hvar]

/-- What was assigned last, if only other variables were assigned later. -/
theorem assigned_last (h : ∀ v, (var, v) ∉ after) :
    assigned (before ++ (var, value) :: after) var = some value := by
  induction after using List.reverseRecOn with
  | nil => rw [assigned_concat, Function.update_self]
  | append_singleton after cmd ih =>
    have hcmd : var ≠ cmd.1 := by
      intro hvar
      apply h cmd.2
      rw [hvar]
      exact List.mem_append_right after (List.mem_singleton_self cmd)
    rw [← List.cons_append, ← List.append_assoc, assigned_concat, Function.update_of_ne hcmd]
    exact ih fun v hv => h v (List.mem_append_left _ hv)

/-- Every variable was assigned for the last time by some command. -/
theorem exists_last (h : var ∈ names cmds) :
    ∃ before value after, cmds = before ++ (var, value) :: after ∧ ∀ v, (var, v) ∉ after := by
  induction cmds with
  | nil => simp [names] at h
  | cons cmd cmds ih =>
    by_cases hlater : var ∈ names cmds
    · obtain ⟨before, value, after, hcmds, hlast⟩ := ih hlater
      exact ⟨cmd :: before, value, after, by rw [hcmds, List.cons_append], hlast⟩
    · have hvar : var = cmd.1 := by
        simp only [names, List.map_cons, List.toFinset_cons, Finset.mem_insert] at h hlater
        exact h.resolve_right hlater
      refine ⟨[], cmd.2, cmds, by rw [hvar]; rfl, fun v hv => hlater ?_⟩
      rw [names, List.mem_toFinset]
      exact List.mem_map_of_mem hv

/-- While there is a slot for every name, the store is the map that the commands assign. -/
theorem vstoreGet_runSets (h : (names cmds).card ≤ size) :
    (runSets size cmds).vstoreGet = assigned cmds := by
  induction cmds using List.reverseRecOn with
  | nil =>
    funext var
    apply Option.eq_none_iff_forall_ne_some.mpr
    intro value hvalue
    obtain ⟨i, hi⟩ := (VariableStore.vstoreGet_eq_some (unique_runSets size [])).mp hvalue
    contradiction
  | append_singleton cmds cmd ih =>
    rw [names_concat] at h
    have ih := ih ((Finset.card_le_card (Finset.subset_insert _ _)).trans h)
    have hunique := unique_runSets size cmds
    have hkeys : (runSets size cmds).keys = names cmds := by
      ext var
      rw [Slots.mem_keys, mem_names, ← ih, Option.ne_none_iff_exists']
      exact exists_congr fun v => (VariableStore.vstoreGet_eq_some hunique).symm
    rw [runSets_concat, assigned_concat, ← ih]
    apply VariableStore.vstoreGet_vstoreSet hunique
    rw [hkeys]
    by_cases hmem : cmd.1 ∈ names cmds
    · exact .inl hmem
    · rw [Finset.card_insert_of_notMem hmem] at h
      exact .inr h

theorem print_eq (store : VariableStore size) (h : store.vstoreGet var = some value) :
    print store var = (value ++ "\n", 0) := by
  rw [print, h]

/-- A variable that is printed without an error is in the store. -/
theorem mem_keys_of_print {store : VariableStore size} (h : store.Unique)
    (hprint : (print store var).2 = 0) : var ∈ store.keys := by
  cases hget : store.vstoreGet var with
  | none =>
    rw [print, hget] at hprint
    contradiction
  | some value => exact Slots.mem_keys.mpr ⟨value, (VariableStore.vstoreGet_eq_some h).mp hget⟩

/-- A `set` that returns `0` gives the variable its value, to be read until the variable is set
again, and leaves the values of the others as they were. -/
def SetsKept (size : ℕ) (cmds : List (String × String)) : Prop :=
  ∀ before var value after, before ++ (var, value) :: after <+: cmds →
    (set (runSets size before) var value).1 = 0 →
      ((∀ v, (var, v) ∉ after) →
        print (runSets size (before ++ (var, value) :: after)) var = (value ++ "\n", 0) ∧
        echo (runSets size (before ++ (var, value) :: after)) ("$" ++ var) = (value ++ "\n", 0)) ∧
      ∀ other, other ≠ var → (set (runSets size before) var value).2.vstoreGet other =
        (runSets size before).vstoreGet other

/-- The variables keep their values exactly as long as there is a slot for each name. -/
theorem setsKept_iff (size : ℕ) (cmds : List (String × String)) :
    SetsKept size cmds ↔ (names cmds).card ≤ size := by
  constructor
  · intro hkept
    have hsub : names cmds ⊆ (runSets size cmds).keys := by
      intro var hvar
      obtain ⟨before, value, after, hcmds, hlast⟩ := exists_last hvar
      have hread := (hkept before var value after (by rw [hcmds]) rfl).1 hlast
      rw [← hcmds] at hread
      exact mem_keys_of_print (unique_runSets size cmds) (by rw [hread.1])
    calc (names cmds).card ≤ (runSets size cmds).keys.card := Finset.card_le_card hsub
      _ ≤ Fintype.card (Fin size) := Slots.card_keys_le _
      _ = size := Fintype.card_fin size
  · intro hcard before var value after hprefix _
    have hroom : ∀ cmds', cmds' <+: cmds → (names cmds').card ≤ size := by
      intro cmds' hpre
      refine (Finset.card_le_card ?_).trans hcard
      intro x hx
      rw [names, List.mem_toFinset] at hx ⊢
      exact (hpre.map Prod.fst).subset hx
    have hget := vstoreGet_runSets (hroom _ hprefix)
    constructor
    · intro hlast
      rw [echo_dollar]
      have hprint := print_eq _ ((congrFun hget var).trans (assigned_last hlast))
      exact ⟨hprint, hprint⟩
    · intro other hother
      have hpre : before ++ [(var, value)] <+: cmds :=
        (List.prefix_append_right_inj before |>.mpr ⟨after, rfl⟩).trans hprefix
      have hbefore := vstoreGet_runSets (hroom before ((List.prefix_append before _).trans hpre))
      have hafter := vstoreGet_runSets (hroom _ hpre)
      rw [runSets_concat, assigned_concat] at hafter
      show ((runSets size before).vstoreSet var value).vstoreGet other = _
      rw [hafter, hbefore, Function.update_of_ne hother]

def elevenSets : List (String × String) :=
  ["a", "b", "c", "d", "e", "f", "g", "h", "i", "j", "k"].map fun var => (var, "1")

theorem not_setsKept : ¬ SetsKept 10 elevenSets := by
  intro hkept
  have hread := (hkept (elevenSets.take 10) "k" "1" [] ⟨[], rfl⟩ rfl).1 (by simp)
  have hmissing : (print (runSets 10 elevenSets) "k").2 = 6 := by decide +kernel
  rw [show elevenSets.take 10 ++ [("k", "1")] = elevenSets from rfl] at hread
  rw [hread.1] at hmissing
  contradiction

end PicoShell.Memory
