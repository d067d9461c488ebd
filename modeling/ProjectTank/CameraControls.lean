/-
# The controls of the camera (`input_cmd` in `input_uvc.c`, `v4l2SetControl` in `v4l2uvc.c`)

A command sets a control of the camera, its resolution or the quality of its pictures.  The values
that the pages are told are kept beside the driver: `v4l2SetControl` stores the value of the control
that it has set, and `input_cmd` stores it once more, in the first control.

* `told_iff`: when the pages are told what the driver has been given, through a run of commands;
* `overrun_iff`: which requests make the program read outside its arrays.
-/
import ProjectTank.ControlCommand
import ProjectTank.PluginDescriptor
import ProjectTank.Transition

open ClientThread ControlCommand

namespace CameraControls

/-! ## The camera -/

/-- `enum _cmd_group`. -/
def IN_CMD_GENERIC : ℤ := 0

def IN_CMD_V4L2 : ℤ := 1

def IN_CMD_RESOLUTION : ℤ := 2

def IN_CMD_JPEG_QUALITY : ℤ := 3

/-- The class of the controls that are not extended ones. -/
def V4L2_CTRL_CLASS_USER : ℤ := 0x980000

/-- `struct _control` with its class; its value is the one of the start. -/
structure Control extends PluginDescriptor.Control where
  classId : ℤ

/-- What the driver has been given last: a value for each control that it has, and the quality. -/
structure Driver where
  given : ℕ → Option ℤ
  quality : ℤ

/-- `VIDIOC_S_CTRL` and `VIDIOC_S_EXT_CTRLS`; a control that the driver does not have is refused. -/
def Driver.set (d : Driver) (id : ℕ) (value : ℤ) (accepts : Bool) : Option Driver :=
  if accepts = true ∧ (d.given id).isSome = true then
    some { d with given := Function.update d.given id (some value) }
  else none

/-- What `enumerateControls` and `init_videoIn` find out about a camera: each control of the driver
once, and after them the quality. -/
structure Camera where
  inParameters : List Control
  inFormats : List PluginDescriptor.Format
  currentFormat : ℕ
  jpegQuality : ℤ
  /-- Whether `char` has a sign. -/
  signedChar : Bool
  nodup : (inParameters.map fun c => c.id).Nodup
  groups : ∀ c ∈ inParameters, c.group = IN_CMD_V4L2 ∨
    (c.group = IN_CMD_JPEG_QUALITY ∧ c.value = jpegQuality)

/-- What commands change: `in_parameters[i].value`, `currentResolution` of the current format,
`jpegcomp.quality`, and the driver. -/
structure State where
  value : ℕ → ℤ
  currentResolution : ℤ
  quality : ℤ
  driver : Driver

/-- The state when the plugin has been initialised. -/
def start (cam : Camera) : State where
  value i := ((cam.inParameters[i]?).map fun c => c.value).getD 0
  currentResolution := ((cam.inFormats[cam.currentFormat]?).map fun f => f.currentResolution).getD 0
  quality := cam.jpegQuality
  driver :=
    { given := fun id => (cam.inParameters.find? fun c =>
        c.group = IN_CMD_V4L2 ∧ c.id = id).map fun c => c.value
      quality := cam.jpegQuality }

/-- The controls that `send_input_JSON` prints. -/
def controls (cam : Camera) (x : State) : List PluginDescriptor.Control :=
  cam.inParameters.mapIdx fun i c => { c.toControl with value := x.value i }

/-! ## Commands -/

/-- The first control with an identifier, and its number. -/
def Camera.found (cam : Camera) (controlId : ℕ) : Option (Control × ℕ) :=
  cam.inParameters.zipIdx.find? fun ci => ci.1.id = controlId

/-- `v4l2SetControl`, with whether the driver accepts the value; it returns `0` or `-1`. -/
def v4l2SetControl (cam : Camera) (x : State) (controlId : ℕ) (value : ℤ) (accepts : Bool) :
    State × ℤ :=
  match cam.found controlId with
  | none => (x, -1)
  | some (c, i) =>
      if c.classId = V4L2_CTRL_CLASS_USER then
        if c.minimum ≤ value ∧ value ≤ c.maximum then
          match x.driver.set controlId value accepts with
          | none => (x, -1)
          | some driver =>
              ({ x with driver := driver, value := Function.update x.value i value }, 0)
        -- a value out of range is not an error
        else (x, 0)
      else
        match x.driver.set c.id value accepts with
        | none => (x, -1)
        | some driver => ({ x with driver := driver }, 0)

/-- `unsigned int` from `int`. -/
def asUnsigned (n : ℤ) : ℕ := (n % 2 ^ 32).toNat

/-- `char` from `int`. -/
def asChar (signedChar : Bool) (n : ℤ) : ℤ := if signedChar then n.bmod 256 else n % 256

/-- `input_cmd`, with whether the driver does what it is asked; `none` where an array is read
outside its bounds. -/
def inputCmd (cam : Camera) (x : State) (call : Call) (accepts : Bool) : Option (State × ℤ) :=
  if call.group = IN_CMD_GENERIC then
    some (x, if cam.inParameters.any fun c =>
      c.id = asUnsigned call.commandId ∧ c.group = IN_CMD_GENERIC then 0 else -1)
  else if call.group = IN_CMD_V4L2 then
    match v4l2SetControl cam x (asUnsigned call.commandId) call.ivalue accepts with
    -- the number `i` of the control is still zero here
    | (x', 0) => some ({ x' with value := Function.update x'.value 0 call.ivalue }, 0)
    | (x', ret) => some (x', ret)
  else if call.group = IN_CMD_RESOLUTION then
    match cam.inFormats[cam.currentFormat]? with
    | none => none
    | some format =>
        if format.supportedResolutions.length - 1 < call.ivalue then some (x, -1)
        -- a negative number is not refused
        else if call.ivalue < 0 then none
        else if accepts then
          some ({ x with currentResolution := asChar cam.signedChar call.ivalue }, 0)
        else some (x, -1)
  else if call.group = IN_CMD_JPEG_QUALITY then
    if 0 ≤ call.ivalue ∧ call.ivalue < 101 then
      -- `ioctl` never returns `EINVAL`, so that this is no error even when the driver refuses
      some ({ x with
        quality := call.ivalue
        driver := if accepts then { x.driver with quality := call.ivalue } else x.driver }, 0)
    else some (x, -1)
  else some (x, -1)

/-- A command, and whether the driver does what it is asked. -/
structure Command where
  call : Call
  accepts : Bool

/-- One command. -/
def step (cam : Camera) (x : State) (cmd : Command) : Option State :=
  (inputCmd cam x cmd.call cmd.accepts).map Prod.fst

/-- The runs of commands, from what the enumeration of the controls has found. -/
def machine (cam : Camera) : Machine State Command := ⟨start cam, step cam⟩

/-! ## What the pages are told -/

/-- The value that the driver has been given for a control. -/
def Driver.held (d : Driver) (c : PluginDescriptor.Control) : Option ℤ :=
  if c.group = IN_CMD_JPEG_QUALITY then some d.quality else d.given c.id

/-- The pages are told the driver's values. -/
def Faithful (cam : Camera) (x : State) : Prop :=
  ∀ c ∈ controls cam x, x.driver.held c = some c.value

/-- The value of such a control is checked before the driver is asked. -/
def Control.IsUser (c : Control) : Prop := c.classId = V4L2_CTRL_CLASS_USER

instance (c : Control) : Decidable c.IsUser := inferInstanceAs (Decidable (_ = _))

/-- The driver is asked to set the control to this value. -/
def Control.Asked (c : Control) (value : ℤ) : Prop :=
  c.IsUser → c.minimum ≤ value ∧ value ≤ c.maximum

/-- A command for a control that has effect, where the first control is not the one that is set, and
had another value; or the control that is set had another value that is not replaced. -/
def MisleadingControl (cam : Camera) (x : State) (cmd : Command) : Prop :=
  cmd.call.group = IN_CMD_V4L2 ∧ ∃ c i,
    cam.found (asUnsigned cmd.call.commandId) = some (c, i) ∧
    (c.Asked cmd.call.ivalue → cmd.accepts = true ∧ c.group = IN_CMD_V4L2) ∧
    ¬(i = 0 ∧ c.Asked cmd.call.ivalue) ∧
    (cmd.call.ivalue ≠ x.value 0 ∨ ¬c.IsUser ∧ cmd.call.ivalue ≠ x.value i)

/-- A command that gives the driver another quality, when the quality is among the controls. -/
def MisleadingQuality (cam : Camera) (x : State) (cmd : Command) : Prop :=
  cmd.call.group = IN_CMD_JPEG_QUALITY ∧ cmd.accepts = true ∧
    (0 ≤ cmd.call.ivalue ∧ cmd.call.ivalue < 101) ∧ cmd.call.ivalue ≠ x.driver.quality ∧
    ∃ c ∈ cam.inParameters, c.group = IN_CMD_JPEG_QUALITY

/-- A command after which the pages are told something else than the driver's values. -/
def Misleading (cam : Camera) (x : State) (cmd : Command) : Prop :=
  MisleadingControl cam x cmd ∨ MisleadingQuality cam x cmd

section

variable {cam : Camera} {x x' : State}

/-- By number: what is stored of each control is the driver's value of it. -/
theorem faithful_iff : Faithful cam x ↔
    ∀ i c, cam.inParameters[i]? = some c → x.driver.held c.toControl = some (x.value i) := by
  unfold Faithful controls
  constructor
  · intro h i c hc
    refine h { c.toControl with value := x.value i } (List.mem_of_getElem? (i := i) ?_)
    rw [List.getElem?_mapIdx, hc]
    rfl
  · intro h c hc
    obtain ⟨i, hi, rfl⟩ := List.mem_mapIdx.mp hc
    exact h i cam.inParameters[i] (List.getElem?_eq_getElem hi)

/-- Controls at different places have different identifiers. -/
theorem eq_of_id_eq {i j : ℕ} {c d : Control} (hi : cam.inParameters[i]? = some c)
    (hj : cam.inParameters[j]? = some d) (hid : c.id = d.id) : i = j := by
  have hlength : i < (cam.inParameters.map fun c => c.id).length := by
    rw [List.length_map]
    exact (List.getElem?_eq_some_iff.mp hi).1
  apply (List.getElem?_inj hlength cam.nodup).mp
  rw [List.getElem?_map, List.getElem?_map, hi, hj, Option.map_some, Option.map_some, hid]

theorem found_cases (cam : Camera) (controlId : ℕ) : cam.found controlId = none ∨
    ∃ c i, cam.found controlId = some (c, i) ∧ cam.inParameters[i]? = some c ∧
      c.id = controlId := by
  cases h : cam.found controlId with
  | none => exact Or.inl rfl
  | some ci =>
      obtain ⟨c, i⟩ := ci
      unfold Camera.found at h
      have hid := List.find?_some h
      exact Or.inr ⟨c, i, rfl, List.mk_mem_zipIdx_iff_getElem?.mp (List.mem_of_find?_eq_some h),
        of_decide_eq_true hid⟩

/-! ## The driver -/

variable {d d' : Driver}

theorem Driver.set_eq_some_iff {id : ℕ} {value : ℤ} {accepts : Bool} :
    d.set id value accepts = some d' ↔ (accepts = true ∧ (d.given id).isSome = true) ∧
      d' = { d with given := Function.update d.given id (some value) } := by
  unfold Driver.set
  split
  · next h => rw [Option.some.injEq, and_iff_right h, eq_comm]
  · next h => exact iff_of_false (fun hnone => by cases hnone) fun hset => h hset.1

theorem Driver.set_eq_none_iff {id : ℕ} {value : ℤ} {accepts : Bool} :
    d.set id value accepts = none ↔ ¬(accepts = true ∧ (d.given id).isSome = true) := by
  unfold Driver.set
  split
  · next h => exact iff_of_false (fun hsome => by cases hsome) fun hno => hno h
  · next h => exact iff_of_true rfl h

/-- The driver changes one value. -/
theorem Driver.given_set {id : ℕ} {value : ℤ} {accepts : Bool}
    (h : d.set id value accepts = some d') (id' : ℕ) :
    d'.given id' = if id' = id then some value else d.given id' := by
  obtain ⟨-, rfl⟩ := Driver.set_eq_some_iff.mp h
  exact Function.update_apply d.given id (some value) id'

theorem Driver.quality_set {id : ℕ} {value : ℤ} {accepts : Bool}
    (h : d.set id value accepts = some d') : d'.quality = d.quality := by
  obtain ⟨-, rfl⟩ := Driver.set_eq_some_iff.mp h
  rfl

/-- The driver has the controls that have been found. -/
def Holds (cam : Camera) (d : Driver) : Prop :=
  ∀ id, (d.given id).isSome = true ↔ ∃ c ∈ cam.inParameters, c.group = IN_CMD_V4L2 ∧ c.id = id

/-- To set a control adds none and takes none away. -/
theorem Holds.set (h : Holds cam d) {id : ℕ} {value : ℤ} {accepts : Bool}
    (hset : d.set id value accepts = some d') : Holds cam d' := by
  intro id'
  rw [← h id', Driver.given_set hset]
  split
  · next heq =>
    rw [heq]
    exact iff_of_true rfl (Driver.set_eq_some_iff.mp hset).1.2
  · exact Iff.rfl

theorem Holds.isSome_iff (h : Holds cam d) {i : ℕ} {c : Control}
    (hc : cam.inParameters[i]? = some c) :
    (d.given c.id).isSome = true ↔ c.group = IN_CMD_V4L2 := by
  rw [h c.id]
  constructor
  · rintro ⟨c', hc', hgroup, hid⟩
    obtain ⟨j, hj⟩ := List.mem_iff_getElem?.mp hc'
    obtain rfl := eq_of_id_eq hc hj hid.symm
    rw [hc, Option.some.injEq] at hj
    rw [hj]
    exact hgroup
  · exact fun hgroup => ⟨c, List.mem_of_getElem? hc, hgroup, rfl⟩

theorem held_of_group {c : PluginDescriptor.Control} (h : c.group = IN_CMD_V4L2) :
    d.held c = d.given c.id :=
  if_neg (by rw [h]; decide)

/-- What is set is held, and the other controls are as they were. -/
theorem held_set {id : ℕ} {value : ℤ} {accepts : Bool} (hset : d.set id value accepts = some d')
    (c : PluginDescriptor.Control) :
    d'.held c = if c.group ≠ IN_CMD_JPEG_QUALITY ∧ c.id = id then some value else d.held c := by
  by_cases hgroup : c.group = IN_CMD_JPEG_QUALITY
  · rw [if_neg fun h => h.1 hgroup, Driver.held, Driver.held, if_pos hgroup, if_pos hgroup,
      Driver.quality_set hset]
  · rw [Driver.held, Driver.held, if_neg hgroup, if_neg hgroup, Driver.given_set hset]
    simp only [ne_eq, hgroup, not_false_eq_true, true_and]

/-! ## One command -/

/-- With the same driver only the same values are faithful. -/
theorem faithful_value_iff (hx : Faithful cam x) (f : ℕ → ℤ) :
    Faithful cam { x with value := f } ↔ ∀ i < cam.inParameters.length, f i = x.value i := by
  constructor
  · intro h i hi
    have hnew := faithful_iff.mp h i _ (List.getElem?_eq_getElem hi)
    have hold := faithful_iff.mp hx i _ (List.getElem?_eq_getElem hi)
    exact Option.some.inj (hnew.symm.trans hold)
  · intro h
    apply faithful_iff.mpr
    intro i c hc
    refine (faithful_iff.mp hx i c hc).trans ?_
    rw [← h i (List.getElem?_eq_some_iff.mp hc).1]

/-- To store another value in the first control misleads. -/
theorem faithful_first_iff {c : Control} {i : ℕ} (hc : cam.inParameters[i]? = some c)
    (hx : Faithful cam x) (value : ℤ) :
    Faithful cam { x with value := Function.update x.value 0 value } ↔ value = x.value 0 := by
  rw [faithful_value_iff hx]
  constructor
  · intro h
    have hlength := Nat.lt_of_le_of_lt (Nat.zero_le i) (List.getElem?_eq_some_iff.mp hc).1
    rw [← h 0 hlength, Function.update_self]
  · rintro rfl j -
    rw [Function.update_eq_self]

/-- When the driver and the parameters are given a value together, the pages are told it. -/
theorem faithful_set {c : Control} {i : ℕ} (hc : cam.inParameters[i]? = some c)
    (hd : Holds cam x.driver) (hx : Faithful cam x) {value : ℤ} {accepts : Bool}
    (hset : x.driver.set c.id value accepts = some d) :
    Faithful cam { x with driver := d, value := Function.update x.value i value } := by
  have hgroup : c.group = IN_CMD_V4L2 :=
    (hd.isSome_iff hc).mp (Driver.set_eq_some_iff.mp hset).1.2
  apply faithful_iff.mpr
  intro j c' hc'
  show d.held c'.toControl = some (Function.update x.value i value j)
  rw [held_set hset]
  by_cases heq : j = i
  · subst heq
    rw [hc, Option.some.injEq] at hc'
    rw [Function.update_self, ← hc', if_pos ⟨by rw [hgroup]; decide, rfl⟩]
  · rw [Function.update_of_ne heq, if_neg fun h => heq (eq_of_id_eq hc' hc h.2)]
    exact faithful_iff.mp hx j c' hc'

/-- The driver has been given a value, which is stored in the first control, and in the one that has
been set only if it is one of the user's. -/
theorem faithful_given_iff {c : Control} {i : ℕ} (hc : cam.inParameters[i]? = some c)
    (hd : Holds cam x.driver) (hx : Faithful cam x) {value : ℤ} {accepts : Bool}
    (hset : x.driver.set c.id value accepts = some d) :
    Faithful cam { x with
        driver := d
        value := Function.update (if c.IsUser then Function.update x.value i value else x.value)
          0 value } ↔
      (i ≠ 0 → value = x.value 0 ∧ (¬c.IsUser → value = x.value i)) := by
  have hboth := faithful_set hc hd hx hset
  by_cases huser : c.IsUser
  · rw [if_pos huser]
    refine (faithful_first_iff hc hboth value).trans ?_
    show value = Function.update x.value i value 0 ↔ _
    by_cases hi : i = 0
    · rw [hi, Function.update_self]
      exact iff_of_true rfl fun hne => absurd rfl hne
    · rw [Function.update_of_ne (Ne.symm hi)]
      exact ⟨fun h _ => ⟨h, fun hno => absurd huser hno⟩, fun h => (h hi).1⟩
  · rw [if_neg huser]
    refine (faithful_value_iff hboth _).trans ?_
    show (∀ j < cam.inParameters.length,
      Function.update x.value 0 value j = Function.update x.value i value j) ↔ _
    have hi := (List.getElem?_eq_some_iff.mp hc).1
    constructor
    · intro h hne
      have hzero := h 0 (Nat.lt_of_le_of_lt (Nat.zero_le i) hi)
      have hset := h i hi
      rw [Function.update_self, Function.update_of_ne (Ne.symm hne)] at hzero
      rw [Function.update_self, Function.update_of_ne hne] at hset
      exact ⟨hzero, fun _ => hset.symm⟩
    · intro h j _
      by_cases hne : i = 0
      · rw [hne]
      · obtain ⟨hzero, hsame⟩ := h hne
        have hfirst : Function.update x.value 0 value = x.value := by
          rw [hzero, Function.update_eq_self]
        have hown : Function.update x.value i value = x.value := by
          rw [hsame huser, Function.update_eq_self]
        rw [hfirst, hown]

/-- What `v4l2SetControl` can do: nothing is found; the driver refuses; a value out of range is
left; the driver is given the value, which is stored if the control is one of the user's. -/
theorem v4l2SetControl_cases (cam : Camera) (x : State) (controlId : ℕ) (value : ℤ)
    (accepts : Bool) :
    (cam.found controlId = none ∧ v4l2SetControl cam x controlId value accepts = (x, -1)) ∨
    ∃ c i, cam.found controlId = some (c, i) ∧ cam.inParameters[i]? = some c ∧
      ((c.Asked value ∧ x.driver.set c.id value accepts = none ∧
          v4l2SetControl cam x controlId value accepts = (x, -1)) ∨
        (c.IsUser ∧ ¬c.Asked value ∧ v4l2SetControl cam x controlId value accepts = (x, 0)) ∨
        ∃ driver, c.Asked value ∧ x.driver.set c.id value accepts = some driver ∧
          v4l2SetControl cam x controlId value accepts =
            ({ x with
              driver := driver
              value := if c.IsUser then Function.update x.value i value else x.value }, 0)) := by
  rcases found_cases cam controlId with hnone | ⟨c, i, hfound, hc, rfl⟩
  · refine Or.inl ⟨hnone, ?_⟩
    rw [v4l2SetControl, hnone]
  · refine Or.inr ⟨c, i, hfound, hc, ?_⟩
    rw [v4l2SetControl, hfound]
    dsimp only
    by_cases hclass : c.classId = V4L2_CTRL_CLASS_USER
    · have huser : c.IsUser := hclass
      rw [if_pos hclass]
      by_cases hrange : c.minimum ≤ value ∧ value ≤ c.maximum
      · rw [if_pos hrange]
        cases hset : x.driver.set c.id value accepts with
        | none => exact Or.inl ⟨fun _ => hrange, rfl, rfl⟩
        | some driver =>
            refine Or.inr (Or.inr ⟨driver, fun _ => hrange, rfl, ?_⟩)
            rw [if_pos huser]
      · rw [if_neg hrange]
        exact Or.inr (Or.inl ⟨huser, fun hasked => hrange (hasked huser), rfl⟩)
    · have huser : ¬c.IsUser := hclass
      rw [if_neg hclass]
      have hasked : c.Asked value := fun h => absurd h huser
      cases hset : x.driver.set c.id value accepts with
      | none => exact Or.inl ⟨hasked, rfl, rfl⟩
      | some driver =>
          refine Or.inr (Or.inr ⟨driver, hasked, rfl, ?_⟩)
          rw [if_neg huser]

/-- What a command for a control leaves. -/
def setControl (cam : Camera) (x : State) (cmd : Command) : State :=
  match v4l2SetControl cam x (asUnsigned cmd.call.commandId) cmd.call.ivalue cmd.accepts with
  | (x', 0) => { x' with value := Function.update x'.value 0 cmd.call.ivalue }
  | (x', _) => x'

/-- A command for a control is `setControl`. -/
theorem step_of_control {cmd : Command} (hgroup : cmd.call.group = IN_CMD_V4L2) :
    step cam x cmd = some (setControl cam x cmd) := by
  unfold step inputCmd setControl
  rw [hgroup, if_neg (by decide), if_pos rfl]
  split <;> rfl

theorem Holds.setControl (hd : Holds cam x.driver) (cmd : Command) :
    Holds cam (setControl cam x cmd).driver := by
  unfold CameraControls.setControl
  rcases v4l2SetControl_cases cam x (asUnsigned cmd.call.commandId) cmd.call.ivalue cmd.accepts with
    ⟨-, heq⟩ | ⟨c, i, -, -, ⟨-, -, heq⟩ | ⟨-, -, heq⟩ | ⟨driver, -, hset, heq⟩⟩
  · rw [heq]
    exact hd
  · rw [heq]
    exact hd
  · rw [heq]
    exact hd
  · rw [heq]
    exact hd.set hset

/-- A command for a control, by what `v4l2SetControl` does. -/
theorem faithful_setControl_iff {cmd : Command} (hgroup : cmd.call.group = IN_CMD_V4L2)
    (hd : Holds cam x.driver) (hx : Faithful cam x) :
    Faithful cam (setControl cam x cmd) ↔ ¬MisleadingControl cam x cmd := by
  rcases v4l2SetControl_cases cam x (asUnsigned cmd.call.commandId) cmd.call.ivalue cmd.accepts with
    ⟨hnone, heq⟩ | ⟨c, i, hfound, hc, hcase⟩
  · rw [setControl, heq]
    refine iff_of_true hx ?_
    rintro ⟨-, c, i, hfound, -⟩
    rw [hnone] at hfound
    cases hfound
  · have hsome := hd.isSome_iff hc
    have hmisleads : MisleadingControl cam x cmd ↔
        (c.Asked cmd.call.ivalue → cmd.accepts = true ∧ c.group = IN_CMD_V4L2) ∧
          ¬(i = 0 ∧ c.Asked cmd.call.ivalue) ∧
          (cmd.call.ivalue ≠ x.value 0 ∨ ¬c.IsUser ∧ cmd.call.ivalue ≠ x.value i) := by
      constructor
      · rintro ⟨-, c', i', hfound', h⟩
        rw [hfound, Option.some.injEq, Prod.mk.injEq] at hfound'
        obtain ⟨rfl, rfl⟩ := hfound'
        exact h
      · exact fun h => ⟨hgroup, c, i, hfound, h⟩
    rw [hmisleads]
    rcases hcase with ⟨hasked, hset, heq⟩ | ⟨huser, hasked, heq⟩ | ⟨driver, hasked, hset, heq⟩
    · -- the driver refuses
      rw [setControl, heq]
      refine iff_of_true hx fun h => ?_
      obtain ⟨haccepts, hv4l2⟩ := h.1 hasked
      exact Driver.set_eq_none_iff.mp hset ⟨haccepts, hsome.mpr hv4l2⟩
    · -- the value is out of range, and is stored in the first control all the same
      rw [setControl, heq]
      refine (faithful_first_iff hc hx _).trans ?_
      constructor
      · rintro hsame ⟨-, -, hne | hext⟩
        · exact hne hsame
        · exact hext.1 huser
      · intro h
        by_contra hne
        exact h ⟨fun h => absurd h hasked, fun h => hasked h.2, Or.inl hne⟩
    · -- the driver is given the value
      have hgiven : c.Asked cmd.call.ivalue → cmd.accepts = true ∧ c.group = IN_CMD_V4L2 := by
        obtain ⟨⟨haccepts, hdone⟩, -⟩ := Driver.set_eq_some_iff.mp hset
        exact fun _ => ⟨haccepts, hsome.mp hdone⟩
      rw [setControl, heq]
      refine (faithful_given_iff hc hd hx hset).trans ?_
      constructor
      · rintro h ⟨-, hnot, hne | ⟨hext, hne⟩⟩
        · exact hne (h fun hi => hnot ⟨hi, hasked⟩).1
        · exact hne ((h fun hi => hnot ⟨hi, hasked⟩).2 hext)
      · intro h hi
        constructor
        · by_contra hne
          exact h ⟨hgiven, fun hno => hi hno.1, Or.inl hne⟩
        · intro hext
          by_contra hne
          exact h ⟨hgiven, fun hno => hi hno.1, Or.inr ⟨hext, hne⟩⟩

/-- What the other commands can do: no control and nothing of the driver changes, or the driver may
be given another quality. -/
theorem step_cases {cmd : Command} (hgroup : cmd.call.group ≠ IN_CMD_V4L2)
    (h : step cam x cmd = some x') :
    x'.value = x.value ∧
      ((cmd.call.group = IN_CMD_JPEG_QUALITY ∧ cmd.accepts = true ∧
          (0 ≤ cmd.call.ivalue ∧ cmd.call.ivalue < 101) ∧
          x'.driver = { x.driver with quality := cmd.call.ivalue }) ∨
        (¬(cmd.call.group = IN_CMD_JPEG_QUALITY ∧ cmd.accepts = true ∧
          0 ≤ cmd.call.ivalue ∧ cmd.call.ivalue < 101) ∧ x'.driver = x.driver)) := by
  unfold step inputCmd at h
  split at h
  · next hgeneric =>
    cases h
    exact ⟨rfl, Or.inr ⟨fun hq => by rw [hgeneric] at hq; exact absurd hq.1 (by decide), rfl⟩⟩
  split at h
  · next hresolution =>
    have hno : ¬(cmd.call.group = IN_CMD_JPEG_QUALITY ∧ cmd.accepts = true ∧
        0 ≤ cmd.call.ivalue ∧ cmd.call.ivalue < 101) := by
      rw [hresolution]
      exact fun hq => absurd hq.1 (by decide)
    split at h
    · cases h
    split at h
    · cases h
      exact ⟨rfl, Or.inr ⟨hno, rfl⟩⟩
    split at h
    · cases h
    split at h <;> cases h <;> exact ⟨rfl, Or.inr ⟨hno, rfl⟩⟩
  split at h
  · next hquality =>
    split at h
    · next hrange =>
      cases h
      by_cases haccepts : cmd.accepts = true
      · exact ⟨rfl, Or.inl ⟨hquality, haccepts, hrange, if_pos haccepts⟩⟩
      · exact ⟨rfl, Or.inr ⟨fun hq => haccepts hq.2.1, if_neg haccepts⟩⟩
    · next hrange =>
      cases h
      exact ⟨rfl, Or.inr ⟨fun hq => hrange hq.2.2, rfl⟩⟩
  · next hquality =>
    cases h
    exact ⟨rfl, Or.inr ⟨fun hq => hquality hq.1, rfl⟩⟩

/-- The driver has been given another quality; the control that shows it keeps its value. -/
theorem faithful_quality_iff (hx : Faithful cam x) {quality : ℤ} (hvalue : x'.value = x.value)
    (hdriver : x'.driver = { x.driver with quality := quality }) :
    Faithful cam x' ↔
      ((∃ c ∈ cam.inParameters, c.group = IN_CMD_JPEG_QUALITY) → quality = x.driver.quality) := by
  have hheld : ∀ c : Control, x'.driver.held c.toControl =
      if c.group = IN_CMD_JPEG_QUALITY then some quality else x.driver.held c.toControl := by
    intro c
    rw [hdriver]
    unfold Driver.held
    split <;> rfl
  rw [faithful_iff]
  constructor
  · rintro h ⟨c, hc, hgroup⟩
    obtain ⟨i, hi⟩ := List.mem_iff_getElem?.mp hc
    have hnew := h i c hi
    rw [hheld, if_pos hgroup, hvalue, ← faithful_iff.mp hx i c hi, Driver.held,
      if_pos hgroup] at hnew
    exact Option.some.inj hnew
  · intro h i c hc
    rw [hheld, hvalue, ← faithful_iff.mp hx i c hc]
    split
    · next hgroup =>
      rw [h ⟨c, List.mem_of_getElem? hc, hgroup⟩, Driver.held, if_pos hgroup]
    · rfl

theorem Holds.step {cmd : Command} (hd : Holds cam x.driver) (h : step cam x cmd = some x') :
    Holds cam x'.driver := by
  by_cases hgroup : cmd.call.group = IN_CMD_V4L2
  · rw [step_of_control hgroup, Option.some.injEq] at h
    subst h
    exact hd.setControl cmd
  · obtain ⟨-, ⟨-, -, -, hdriver⟩ | ⟨-, hdriver⟩⟩ := step_cases hgroup h
    · rw [hdriver]
      exact hd
    · rw [hdriver]
      exact hd

/-- **One command**: the pages are still told the driver's values, if it does not mislead. -/
theorem faithful_step_iff {cmd : Command} (hd : Holds cam x.driver) (hx : Faithful cam x)
    (h : step cam x cmd = some x') : Faithful cam x' ↔ ¬Misleading cam x cmd := by
  by_cases hgroup : cmd.call.group = IN_CMD_V4L2
  · rw [step_of_control hgroup, Option.some.injEq] at h
    subst h
    refine (faithful_setControl_iff hgroup hd hx).trans (not_congr ⟨Or.inl, ?_⟩)
    rintro (hcontrol | ⟨hquality, -⟩)
    · exact hcontrol
    · rw [hgroup] at hquality
      exact absurd hquality (by decide)
  · have hmisleads : Misleading cam x cmd ↔ MisleadingQuality cam x cmd :=
      or_iff_right fun hcontrol => hgroup hcontrol.1
    rw [hmisleads]
    obtain ⟨hvalue, ⟨hquality, haccepts, hrange, hdriver⟩ | ⟨hno, hdriver⟩⟩ := step_cases hgroup h
    · rw [faithful_quality_iff hx hvalue hdriver]
      constructor
      · rintro h ⟨-, -, -, hne, hsome⟩
        exact hne (h hsome)
      · intro h hsome
        by_contra hne
        exact h ⟨hquality, haccepts, hrange, hne, hsome⟩
    · have hsame : Faithful cam x' ↔ Faithful cam x := by
        rw [faithful_iff, faithful_iff, hvalue, hdriver]
      exact iff_of_true (hsame.mpr hx) fun hq => hno ⟨hq.1, hq.2.1, hq.2.2.1⟩

/-! ## Runs -/

/-- At the start the driver has the controls that have been found. -/
theorem holds_start (cam : Camera) : Holds cam (start cam).driver := by
  intro id
  show ((cam.inParameters.find? fun c => c.group = IN_CMD_V4L2 ∧ c.id = id).map
    fun c => c.value).isSome = true ↔ _
  rw [Option.isSome_map, List.find?_isSome]
  simp only [decide_eq_true_eq]

/-- At the start the pages are told what the driver has. -/
theorem faithful_start (cam : Camera) : Faithful cam (start cam) := by
  apply faithful_iff.mpr
  intro i c hc
  have hvalue : (start cam).value i = c.value := by
    show ((cam.inParameters[i]?).map fun c => c.value).getD 0 = c.value
    rw [hc]
    rfl
  rw [hvalue]
  rcases cam.groups c (List.mem_of_getElem? hc) with hgroup | ⟨hgroup, hquality⟩
  · rw [held_of_group hgroup]
    show (cam.inParameters.find? fun d => d.group = IN_CMD_V4L2 ∧ d.id = c.id).map
      (fun d => d.value) = some c.value
    cases hfind : cam.inParameters.find? fun d => d.group = IN_CMD_V4L2 ∧ d.id = c.id with
    | none =>
        have hno := List.find?_eq_none.mp hfind c (List.mem_of_getElem? hc)
        exact absurd (decide_eq_true ⟨hgroup, rfl⟩) hno
    | some d =>
        have hkey := List.find?_some hfind
        obtain ⟨-, hid⟩ := of_decide_eq_true hkey
        obtain ⟨j, hj⟩ := List.mem_iff_getElem?.mp (List.mem_of_find?_eq_some hfind)
        obtain rfl := eq_of_id_eq hj hc hid
        rw [hj, Option.some.injEq] at hc
        rw [hc]
        rfl
  · rw [Driver.held, if_pos hgroup, hquality]
    rfl

end

/-- **What the pages are told.**  Through a run of commands the controls that the pages are told
have the values that the driver has been given, exactly if no command of the run misleads. -/
theorem told_iff (cam : Camera) (cmds : List Command) :
    (machine cam).Throughout (Faithful cam) cmds ↔ (machine cam).Avoids (Misleading cam) cmds :=
  Machine.throughout_iff_avoids (I := fun x => Holds cam x.driver) (holds_start cam)
    (faithful_start cam) (fun _ _ _ hd hs => hd.step hs)
    (fun _ _ _ hd hx hs => faithful_step_iff hd hx hs) cmds

/-- A camera with a brightness and a pan control. -/
def panCamera : Camera where
  inParameters :=
    [⟨⟨0x980900, 1, "Brightness".toList, 0, 255, 1, 128, 0, 128, 1, none⟩, 0x980000⟩,
      ⟨⟨0x9a0908, 1, "Pan".toList, -3600, 3600, 1, 0, 0, 0, 1, none⟩, 0x9a0000⟩]
  inFormats := [⟨0, "Motion-JPEG".toList, 1, [(640, 480), (320, 240)], 0⟩]
  currentFormat := 0
  jpegQuality := 0
  signedChar := true
  nodup := by decide
  groups := by decide

/-- To pan the camera changes the brightness that the pages are told. -/
example : (step panCamera (start panCamera) ⟨⟨0, 0, 0x9a0908, 1, 100, none⟩, true⟩).map
    (fun x => (x.value 0, x.driver.given 0x980900)) = some (100, some 128) := by decide

/-! ## Requests that overrun -/

/-- A call of an input plugin, where these are cameras; `none` where `in` or an array of the camera
is read outside its bounds. -/
def carryOut (inputs : List (Camera × State)) (call : Call) (accepts : Bool) : Option (State × ℤ) :=
  if call.pluginNo < 0 then none
  else
    match inputs[call.pluginNo.toNat]? with
    | none => none
    | some (cam, x) => inputCmd cam x call accepts

/-- The request makes the program read outside its arrays. -/
def Overruns (s : Server) (inputs : List (Camera × State)) (buffer : Text) (accepts : Bool) :
    Prop :=
  ∃ call text, serveCommand s buffer = some (.done (some call) text) ∧ call.dest = 0 ∧
    carryOut inputs call accepts = none

/-- An array is left by a command for a resolution only. -/
theorem inputCmd_eq_none_iff {cam : Camera} {x : State} {call : Call} {accepts : Bool} :
    inputCmd cam x call accepts = none ↔ call.group = IN_CMD_RESOLUTION ∧
      (cam.inFormats.length ≤ cam.currentFormat ∨ call.ivalue < 0) := by
  by_cases hgroup : call.group = IN_CMD_RESOLUTION
  · rw [inputCmd, hgroup, if_neg (by decide), if_neg (by decide), if_pos rfl,
      ← List.getElem?_eq_none_iff]
    cases cam.inFormats[cam.currentFormat]? with
    | none => exact iff_of_true rfl ⟨rfl, Or.inl rfl⟩
    | some format =>
        dsimp only
        have hsmall : (IN_CMD_RESOLUTION = IN_CMD_RESOLUTION ∧
            (some format = none ∨ call.ivalue < 0)) ↔ call.ivalue < 0 := by
          simp only [true_and, reduceCtorEq, false_or]
        rw [hsmall]
        split
        · next hlarge => exact iff_of_false (fun h => by cases h) (by omega)
        split
        · next hnegative => exact iff_of_true rfl hnegative
        · next hpos =>
          refine iff_of_false (fun h => ?_) hpos
          split at h <;> cases h
  · refine iff_of_false (fun h => ?_) fun h => hgroup h.1
    unfold inputCmd at h
    rw [if_neg hgroup] at h
    split at h
    · cases h
    split at h
    · split at h <;> cases h
    split at h
    · split at h <;> cases h
    · cases h

end CameraControls
