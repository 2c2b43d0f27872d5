import ContractAlgebra.Settings
import Mathlib.Data.List.Basic
import Mathlib.Data.List.Sort

/-!
# Settings that are built and changed

Every field has a check of its own. If all that is asked for passes, it holds afterwards; else nothing is
changed, and just those fields are named that did not pass (`Settings.setAll_eq_error`). A unit that is
accepted is not empty, and this is all that the settings must keep: from the defaults on, whatever is
changed and whatever the environment asks for, the settings that hold could be built from their own fields
(`Settings.answers_ofEnvironment`).
-/

namespace ContractAlgebra

/-- A level is read from a text just if the text without blanks around it is the name in capitals. -/
theorem LogLevel.ofText?_eq_some {text : String} {level : LogLevel} :
    ofText? text = some level ↔ (Text.trim text.toList).flatMap capital = level.name.toList := by
  have hdistinct : ∀ a ∈ all, ∀ b ∈ all, a.name.toList = b.name.toList → a = b := by decide
  have hall : ∀ level : LogLevel, level ∈ all := by
    intro level
    cases level <;> decide
  rw [ofText?]
  constructor
  · intro h
    exact (eq_of_beq (List.find?_some h :)).symm
  · intro h
    rw [h]
    -- some level has this name, and no second one has
    cases hfound : all.find? fun l => l.name.toList == level.name.toList with
    | none =>
        rw [List.find?_eq_none] at hfound
        exact absurd (beq_self_eq_true _) (hfound level (hall level))
    | some found =>
        have hsame := eq_of_beq (List.find?_some hfound :)
        rw [hdistinct found (hall found) level (hall level) hsame]

namespace Settings

variable {settings settings' : Settings} {asked : List (String × FieldValue)} {field : String}
  {value : FieldValue}

/-! ## One field -/

/-- Whether a value is accepted for a field does not depend on what holds before. -/
theorem isSome_set (settings settings' : Settings) (field : String) (value : FieldValue) :
    (settings.set field value).isSome = (settings'.set field value).isSome := by
  unfold set
  split
  · simp
  · split <;> simp

/-- A field changes the setting that it is named for, and no other. -/
theorem set_eq_some (h : settings.set field value = some settings') :
    (field = unitField ∧ ∃ unit, value.unit? = some unit ∧
        settings' = { settings with valueUnit := unit }) ∨
      (field = pastField ∧ ∃ past, value.flag? = some past ∧
        settings' = { settings with includePast := past }) := by
  unfold set at h
  -- the unit is compared first, then the flag, and other fields are not known
  split at h
  · next hfield =>
      obtain ⟨unit, hunit, rfl⟩ := Option.map_eq_some_iff.mp h
      exact Or.inl ⟨hfield, unit, hunit, rfl⟩
  · split at h
    · next hfield =>
        obtain ⟨past, hpast, rfl⟩ := Option.map_eq_some_iff.mp h
        exact Or.inr ⟨hfield, past, hpast, rfl⟩
    · cases h

/-- A text that is not empty is a unit. -/
theorem unit?_text {unit : String} (h : unit ≠ "") : (FieldValue.text unit).unit? = some unit :=
  if_neg fun hempty => h (String.isEmpty_iff.mp hempty)

/-- What is taken as a unit is not empty. -/
theorem ne_empty_of_unit? {unit : String} (h : value.unit? = some unit) : unit ≠ "" := by
  rintro rfl
  -- a unit is a text, and an empty one is not taken
  cases value with
  | text s =>
      by_cases hempty : s.isEmpty = true
      · rw [FieldValue.unit?, if_pos hempty] at h
        cases h
      · rw [FieldValue.unit?, if_neg hempty] at h
        exact hempty (Option.some.inj h ▸ rfl)
  | boolean _ | number _ | other => cases h

/-! ## Settings that their own fields give -/

/-- The fields that settings are built from. -/
def fields (settings : Settings) : List (String × FieldValue) :=
  [(unitField, .text settings.valueUnit), (pastField, .boolean settings.includePast)]

/-- The fields of some settings are accepted and give these settings, whatever holds before. -/
def Accepted (settings : Settings) : Prop :=
  ∀ before : Settings, before.setAll settings.fields = .ok { settings with log := before.log }

/-- Settings give themselves just if their unit is not empty: the empty unit is refused, and the
flag always passes. -/
theorem accepted_iff : settings.Accepted ↔ settings.valueUnit ≠ "" := by
  constructor
  · intro h hempty
    -- the fields are asked for from the defaults on, and the unit is refused
    have hdefault := h default
    rw [setAll, fields, hempty] at hdefault
    cases hdefault
  · intro h before
    have hunit : before.set unitField (.text settings.valueUnit) =
        some { before with valueUnit := settings.valueUnit } := by
      rw [set, if_pos rfl, unit?_text h]
      rfl
    simp only [setAll, fields, List.filter_cons, hunit, List.foldl_cons]
    rfl

/-- The defaults pass the checks of their fields. -/
theorem accepted_default : default.Accepted :=
  accepted_iff.mpr (by decide)

/-- A field that is accepted keeps the log as it is, and a unit. -/
theorem Accepted.set (h : settings.Accepted) (hset : settings.set field value = some settings') :
    settings'.Accepted ∧ settings'.log = settings.log := by
  rw [accepted_iff] at h ⊢
  rcases set_eq_some hset with ⟨_, unit, hunit, rfl⟩ | ⟨_, past, _, rfl⟩
  · exact ⟨ne_empty_of_unit? hunit, rfl⟩
  · exact ⟨h, rfl⟩

/-! ## Several fields -/

/-- What some fields make of settings, one after the other. -/
theorem Accepted.foldl_set (h : settings.Accepted) (asked : List (String × FieldValue)) :
    (asked.foldl (fun s (field, value) => (s.set field value).getD s) settings).Accepted ∧
      (asked.foldl (fun s (field, value) => (s.set field value).getD s) settings).log =
        settings.log := by
  induction asked generalizing settings with
  | nil => exact ⟨h, rfl⟩
  | cons entry asked ih =>
      rcases entry with ⟨field, value⟩
      have hstep : ((settings.set field value).getD settings).Accepted ∧
          ((settings.set field value).getD settings).log = settings.log := by
        -- a field that is refused leaves the settings as they are
        cases hset : settings.set field value with
        | none => exact ⟨h, rfl⟩
        | some settings' => exact h.set hset
      obtain ⟨hall, hlog⟩ := ih hstep.1
      exact ⟨hall, hlog.trans hstep.2⟩

/-- Fields that are all accepted keep a unit, and the log as it is. -/
theorem Accepted.setAll (h : settings.Accepted) (hset : settings.setAll asked = .ok settings') :
    settings'.Accepted ∧ settings'.log = settings.log := by
  rw [Settings.setAll] at hset
  split at hset
  · obtain rfl := Except.ok.inj hset
    exact h.foldl_set asked
  · cases hset

/-- If all that is asked for is accepted, one field after the other is changed, and none is left out. -/
theorem foldlM_set_of_setAll (h : settings.setAll asked = .ok settings') :
    asked.foldlM (fun s entry => s.set entry.1 entry.2) settings = some settings' := by
  rw [Settings.setAll] at h
  split at h
  next hrejected =>
    obtain rfl := Except.ok.inj h
    have hall : ∀ entry ∈ asked, (settings.set entry.1 entry.2).isSome := by
      intro entry hmem
      have hkept := List.filter_eq_nil_iff.mp (List.isEmpty_iff.mp hrejected) entry hmem
      rwa [Bool.not_eq_true, Option.isNone_eq_false_iff] at hkept
    clear h hrejected
    induction asked generalizing settings with
    | nil => rfl
    | cons entry asked ih =>
        rcases entry with ⟨field, value⟩
        obtain ⟨hfirst, hrest⟩ := List.forall_mem_cons.mp hall
        obtain ⟨next, hnext⟩ := Option.isSome_iff_exists.mp hfirst
        -- what is accepted now was accepted before, too
        have hagain : ∀ entry ∈ asked, (next.set entry.1 entry.2).isSome := fun entry hmem =>
          (isSome_set next settings entry.1 entry.2).trans (hrest entry hmem)
        rw [List.foldlM_cons, hnext, List.foldl_cons]
        simpa [hnext] using ih hagain
  · cases h

/-- What is asked for is refused if some field does not pass its check, and all fields that do not are
named then. -/
theorem setAll_eq_error {names : List String} (h : settings.setAll asked = .error names) :
    names ≠ [] ∧ ∀ name, name ∈ names ↔
      ∃ value, (name, value) ∈ asked ∧ settings.set name value = none := by
  rw [Settings.setAll] at h
  split at h
  · cases h
  next hrejected =>
    obtain rfl := Except.error.inj h
    constructor
    · intro hnil
      -- the names that are given are sorted, and there are as many as were refused
      have hlength := congrArg List.length hnil
      rw [List.length_mergeSort, List.length_map] at hlength
      exact hrejected (List.isEmpty_iff.mpr (List.eq_nil_of_length_eq_zero hlength))
    · intro name
      rw [List.mem_mergeSort, List.mem_map]
      constructor
      · rintro ⟨⟨field, value⟩, hmem, rfl⟩
        rw [List.mem_filter, Option.isNone_iff_eq_none] at hmem
        exact ⟨value, hmem⟩
      · rintro ⟨value, hmem, hnone⟩
        exact ⟨(name, value), List.mem_filter.mpr ⟨hmem, Option.isNone_iff_eq_none.mpr hnone⟩, rfl⟩

/-! ## Environment variables -/

/-- The fields that variables ask for. -/
def askedBy (environment : List (String × String)) : List (String × FieldValue) :=
  ((environment.lookup unitVariable).map fun s => (unitField, FieldValue.text s)).toList ++
    ((environment.lookup pastVariable).map fun s => (pastField, flagOfVariable s)).toList

/-- A field is refused if its variable names no level, is an empty unit, or is no flag. -/
def Refuses (environment : List (String × String)) (field : String) : Prop :=
  ∃ text, (field = levelField ∧ environment.lookup levelVariable = some text ∧
      LogLevel.ofText? text = none) ∨
    (field = unitField ∧ environment.lookup unitVariable = some text ∧ text = "") ∨
      (field = pastField ∧ environment.lookup pastVariable = some text ∧
        (flagOfVariable text).flag? = none)

variable {environment : List (String × String)}

/-- A variable whose field is refused is one of those that refuse. -/
theorem refuses_of_asked (hmem : (field, value) ∈ askedBy environment)
    (hnone : settings.set field value = none) : Refuses environment field := by
  simp only [askedBy, List.mem_append, Option.mem_toList, Option.map_eq_some_iff,
    Prod.mk.injEq] at hmem
  -- the unit or the flag is asked for
  rcases hmem with ⟨text, htext, rfl, rfl⟩ | ⟨text, htext, rfl, rfl⟩
  · refine ⟨text, Or.inr (Or.inl ⟨rfl, htext, ?_⟩)⟩
    by_contra hempty
    rw [set, if_pos rfl, unit?_text hempty] at hnone
    cases hnone
  · refine ⟨text, Or.inr (Or.inr ⟨rfl, htext, ?_⟩)⟩
    rw [set, if_neg (by decide), if_pos rfl] at hnone
    exact Option.map_eq_none_iff.mp hnone

/-- Settings that could be built from their own fields, or fields that are named because they were
refused. -/
def Answers (environment : List (String × String)) (result : Except (List String) Settings) : Prop :=
  (∃ settings, result = .ok settings ∧ settings.Accepted) ∨
    ∃ names, result = .error names ∧ names ≠ [] ∧ ∀ name ∈ names, Refuses environment name

/-- Settings that could be built answer what the variables ask for. -/
theorem Accepted.answers_setAll (h : settings.Accepted) :
    Answers environment (settings.setAll (askedBy environment)) := by
  cases hset : settings.setAll (askedBy environment) with
  | ok settings' => exact Or.inl ⟨settings', rfl, (h.setAll hset).1⟩
  | error names =>
      obtain ⟨hsome, hnames⟩ := setAll_eq_error hset
      refine Or.inr ⟨names, rfl, hsome, fun name hname => ?_⟩
      obtain ⟨value, hmem, hnone⟩ := (hnames name).mp hname
      exact refuses_of_asked hmem hnone

/-- The defaults with the log's destination that a variable asks for. -/
def withSink (environment : List (String × String)) : Settings :=
  { default with
    log := match environment.lookup sinkVariable with
      | some sink => { LogSettings.default with sink := sink }
      | none => .default }

/-- The destination of the log is free. -/
theorem accepted_withSink (environment : List (String × String)) :
    (withSink environment).Accepted := by
  have hunit : (withSink environment).valueUnit = "Wei" := rfl
  rw [accepted_iff, hunit]
  decide

/-- The level is the first to be checked, and then the other fields. -/
theorem ofEnvironment_eq (environment : List (String × String)) :
    ofEnvironment environment =
      (match environment.lookup levelVariable with
        | some text => (withSink environment).setLevel text
        | none => .ok (withSink environment)) >>= (·.setAll (askedBy environment)) := by
  unfold ofEnvironment
  cases environment.lookup levelVariable <;> rfl

/-- Whatever the environment asks for is answered so. -/
theorem answers_ofEnvironment (environment : List (String × String)) :
    Answers environment (ofEnvironment environment) := by
  have hstart := accepted_withSink environment
  rw [ofEnvironment_eq]
  -- a level that is not known is refused before the other fields are asked for
  cases hlevel : environment.lookup levelVariable with
  | none => exact hstart.answers_setAll
  | some text =>
      cases hread : LogLevel.ofText? text with
      | some level =>
          have haccepted : Accepted { withSink environment with
              log := { (withSink environment).log with level := level } } :=
            accepted_iff.mpr (accepted_iff.mp hstart)
          simp only [setLevel, hread]
          exact haccepted.answers_setAll
      | none =>
          simp only [setLevel, hread]
          refine Or.inr ⟨_, rfl, List.cons_ne_nil _ _, ?_⟩
          rw [List.forall_mem_singleton]
          exact ⟨text, Or.inl ⟨rfl, hlevel, hread⟩⟩

end Settings

end ContractAlgebra
