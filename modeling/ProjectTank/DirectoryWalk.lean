/-
# Walks in a tree of directories

A directory is the list of the names that lead to it from the root.  A walk goes down to
an entry by its name or up to the parent, and the root is its own parent; this is what
the names between the slashes of a file name say, one after the other.

* `resolve_eq`: where a walk ends depends only on how far it climbs over the place where
  it begins and on the names that it goes down afterwards (`normal`);
* `inside_resolve_iff`: it ends inside that place if and only if it comes back down
  through everything that it has climbed over, and goes on;
* `climbs_normal_eq_zero_iff`: it never climbs over it if and only if in no initial part
  are there more steps up than down.

Nothing here refers to a particular program.
-/
import Mathlib.Data.List.Basic
import Mathlib.Data.List.Infix
import Mathlib.Tactic.Common

namespace DirectoryWalk

variable {α : Type*}

/-- A step of a walk. -/
inductive Step (α : Type*)
  | down (name : α)
  | up
  deriving DecidableEq, Repr

/-- One step. -/
def move (dir : List α) : Step α → List α
  | .down name => dir ++ [name]
  | .up => dir.dropLast

/-- Where a walk from `dir` ends. -/
def resolve (dir : List α) (steps : List (Step α)) : List α := steps.foldl move dir

/-- Strictly inside a directory. -/
def Inside (dir p : List α) : Prop := dir <+: p ∧ p ≠ dir

instance [DecidableEq α] (dir p : List α) : Decidable (Inside dir p) :=
  inferInstanceAs (Decidable (_ ∧ _))

@[simp] theorem inside_nil {p : List α} : Inside [] p ↔ p ≠ [] := by
  simp [Inside]

/-- Inside is below, by at least one name. -/
theorem inside_iff_exists {dir p : List α} :
    Inside dir p ↔ ∃ name rest, p = dir ++ name :: rest := by
  constructor
  · rintro ⟨⟨rest, rfl⟩, hne⟩
    cases rest with
    | nil => exact absurd (List.append_nil dir) hne
    | cons name rest => exact ⟨name, rest, rfl⟩
  · rintro ⟨name, rest, rfl⟩
    exact ⟨List.prefix_append _ _, by simp⟩

/-- A common beginning does not matter. -/
theorem inside_append_iff {dir rest p : List α} :
    Inside (dir ++ rest) (dir ++ p) ↔ Inside rest p := by
  rw [Inside, Inside, List.prefix_append_right_inj, Ne, List.append_cancel_left_eq]

/-! ## Normal forms -/

/-- A walk without detours: up `climbs` times, then down through `names`. -/
structure Normal (α : Type*) where
  climbs : ℕ := 0
  names : List α := []
  deriving DecidableEq, Repr

/-- One more step: up takes back the last name, when there is one. -/
def Normal.move (n : Normal α) : Step α → Normal α
  | .down name => { n with names := n.names ++ [name] }
  | .up =>
      if n.names = [] then { n with climbs := n.climbs + 1 }
      else { n with names := n.names.dropLast }

/-- The normal form of a walk. -/
def normal (steps : List (Step α)) : Normal α := steps.foldl Normal.move {}

/-- One more step moves the normal form. -/
theorem normal_snoc (steps : List (Step α)) (s : Step α) :
    normal (steps ++ [s]) = (normal steps).move s := by
  rw [normal, List.foldl_append]
  rfl

theorem normal_snoc_down (steps : List (Step α)) (name : α) :
    normal (steps ++ [.down name]) =
      ⟨(normal steps).climbs, (normal steps).names ++ [name]⟩ :=
  normal_snoc steps _

theorem normal_snoc_up_of_nil {steps : List (Step α)} (h : (normal steps).names = []) :
    normal (steps ++ [.up]) = ⟨(normal steps).climbs + 1, (normal steps).names⟩ :=
  (normal_snoc steps _).trans (if_pos h)

theorem normal_snoc_up_of_ne_nil {steps : List (Step α)} (h : (normal steps).names ≠ []) :
    normal (steps ++ [.up]) = ⟨(normal steps).climbs, (normal steps).names.dropLast⟩ :=
  (normal_snoc steps _).trans (if_neg h)

/-- Where a normal walk from `dir` ends. -/
def Normal.place (n : Normal α) (dir : List α) : List α :=
  dir.take (dir.length - n.climbs) ++ n.names

/-- To move the normal form is to move its place. -/
theorem Normal.place_move (n : Normal α) (dir : List α) (s : Step α) :
    (n.move s).place dir = DirectoryWalk.move (n.place dir) s := by
  cases s with
  | down name => exact (List.append_assoc _ _ _).symm
  | up =>
      by_cases hnames : n.names = []
      · have hmove : n.move .up = { n with climbs := n.climbs + 1 } := if_pos hnames
        have htake : dir.take (dir.length - (n.climbs + 1)) =
            (dir.take (dir.length - n.climbs)).dropLast := by
          rw [List.dropLast_eq_take, List.take_take, List.length_take]
          congr 1
          omega
        rw [hmove, place, place, DirectoryWalk.move, hnames, List.append_nil, List.append_nil]
        exact htake
      · have hmove : n.move .up = { n with names := n.names.dropLast } := if_neg hnames
        rw [hmove, place, place, DirectoryWalk.move, List.dropLast_append_of_ne_nil hnames]

/-- **A walk ends where its normal form ends.** -/
theorem resolve_eq (dir : List α) (steps : List (Step α)) :
    resolve dir steps = (normal steps).place dir := by
  have hrun : ∀ n : Normal α, resolve (n.place dir) steps = (steps.foldl Normal.move n).place dir := by
    induction steps with
    | nil => exact fun _ => rfl
    | cons s steps ih =>
        intro n
        have hstep := ih (n.move s)
        rw [n.place_move] at hstep
        exact hstep
  have hbegin : ({} : Normal α).place dir = dir := by
    simp [Normal.place]
  have hempty := hrun {}
  rw [hbegin] at hempty
  exact hempty

/-- From the root every climb is lost. -/
theorem resolve_root (steps : List (Step α)) : resolve [] steps = (normal steps).names := by
  rw [resolve_eq, Normal.place, List.take_nil, List.nil_append]

/-- **Back inside**: the names that a walk goes down begin with those it has climbed over,
and are more than these. -/
theorem inside_resolve_iff {dir : List α} {steps : List (Step α)} :
    Inside dir (resolve dir steps) ↔
      Inside (dir.drop (dir.length - (normal steps).climbs)) (normal steps).names := by
  rw [resolve_eq, Normal.place]
  generalize dir.length - (normal steps).climbs = k
  calc Inside dir (dir.take k ++ (normal steps).names)
      ↔ Inside (dir.take k ++ dir.drop k) (dir.take k ++ (normal steps).names) := by
        rw [List.take_append_drop]
    _ ↔ Inside (dir.drop k) (normal steps).names := inside_append_iff

/-- A walk that does not climb over the place where it begins ends inside it, unless it ends
there. -/
theorem inside_resolve_of_climbs_eq_zero {steps : List (Step α)}
    (hclimbs : (normal steps).climbs = 0) (hnames : (normal steps).names ≠ []) (dir : List α) :
    Inside dir (resolve dir steps) := by
  rw [inside_resolve_iff, hclimbs, Nat.sub_zero, List.drop_length, inside_nil]
  exact hnames

/-- A walk that climbs over a directory in which every name is `a` comes back only through `a`. -/
theorem not_inside_resolve_replicate {steps : List (Step α)} {a : α}
    (hclimbs : (normal steps).climbs ≠ 0) (ha : (normal steps).names.head? ≠ some a) :
    ¬ Inside (List.replicate (normal steps).climbs a)
      (resolve (List.replicate (normal steps).climbs a) steps) := by
  rw [inside_resolve_iff, List.length_replicate, Nat.sub_self, List.drop_zero]
  rintro ⟨⟨rest, hrest⟩, -⟩
  obtain ⟨k, hk⟩ := Nat.exists_eq_succ_of_ne_zero hclimbs
  rw [hk, List.replicate_succ] at hrest
  rw [← hrest] at ha
  exact ha rfl

/-! ## Climbing -/

/-- A step up. -/
def Step.isUp : Step α → Bool
  | .down _ => false
  | .up => true

/-- The steps up of a walk. -/
def ups (steps : List (Step α)) : ℕ := steps.countP Step.isUp

/-- The steps down of a walk. -/
def downs (steps : List (Step α)) : ℕ := steps.countP fun s => !s.isUp

@[simp] theorem ups_snoc_down (steps : List (Step α)) (name : α) :
    ups (steps ++ [.down name]) = ups steps := by
  simp [ups, Step.isUp]

@[simp] theorem ups_snoc_up (steps : List (Step α)) : ups (steps ++ [.up]) = ups steps + 1 := by
  simp [ups, Step.isUp]

@[simp] theorem downs_snoc_down (steps : List (Step α)) (name : α) :
    downs (steps ++ [.down name]) = downs steps + 1 := by
  simp [downs, Step.isUp]

@[simp] theorem downs_snoc_up (steps : List (Step α)) : downs (steps ++ [.up]) = downs steps := by
  simp [downs, Step.isUp]

/-- In no initial part are there more steps up than down. -/
def StaysBelow (steps : List (Step α)) : Prop :=
  ∀ initial ∈ steps.inits, ups initial ≤ downs initial

instance (steps : List (Step α)) : Decidable (StaysBelow steps) :=
  inferInstanceAs (Decidable (∀ initial ∈ steps.inits, ups initial ≤ downs initial))

/-- With one more step there is one more initial part to look at. -/
theorem StaysBelow.snoc_iff {steps : List (Step α)} {s : Step α} :
    StaysBelow (steps ++ [s]) ↔
      StaysBelow steps ∧ ups (steps ++ [s]) ≤ downs (steps ++ [s]) := by
  simp only [StaysBelow, List.mem_inits, List.prefix_concat_iff]
  constructor
  · intro h
    exact ⟨fun initial hinitial => h initial (Or.inr hinitial), h _ (Or.inl rfl)⟩
  · rintro ⟨hbelow, hwhole⟩ initial (rfl | hinitial)
    · exact hwhole
    · exact hbelow initial hinitial

/-- The balance of a walk: what its normal form keeps of the steps up and down. -/
theorem climbs_add_downs (steps : List (Step α)) :
    (normal steps).climbs + downs steps = ups steps + (normal steps).names.length := by
  induction steps using List.reverseRecOn with
  | nil => rfl
  | append_singleton steps s ih =>
      cases s with
      | down name =>
          simp only [normal_snoc_down, ups_snoc_down, downs_snoc_down, List.length_append,
            List.length_singleton]
          omega
      | up =>
          by_cases hnames : (normal steps).names = []
          · simp only [hnames, List.length_nil] at ih
            simp only [normal_snoc_up_of_nil hnames, ups_snoc_up, downs_snoc_up, hnames,
              List.length_nil]
            omega
          · have hpos := List.length_pos_iff.mpr hnames
            simp only [normal_snoc_up_of_ne_nil hnames, ups_snoc_up, downs_snoc_up,
              List.length_dropLast]
            omega

/-- **A walk never climbs over its beginning** if and only if it stays below it. -/
theorem climbs_normal_eq_zero_iff {steps : List (Step α)} :
    (normal steps).climbs = 0 ↔ StaysBelow steps := by
  induction steps using List.reverseRecOn with
  | nil => simp [StaysBelow, normal, ups]
  | append_singleton steps s ih =>
      have hbefore := climbs_add_downs steps
      rw [StaysBelow.snoc_iff, ← ih]
      cases s with
      | down name =>
          simp only [normal_snoc_down, ups_snoc_down, downs_snoc_down]
          omega
      | up =>
          by_cases hnames : (normal steps).names = []
          · -- The step up leaves the place where the walk begins.
            simp only [hnames, List.length_nil] at hbefore
            simp only [normal_snoc_up_of_nil hnames, ups_snoc_up, downs_snoc_up]
            omega
          · have hpos := List.length_pos_iff.mpr hnames
            simp only [normal_snoc_up_of_ne_nil hnames, ups_snoc_up, downs_snoc_up]
            omega

end DirectoryWalk
