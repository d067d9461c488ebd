/-
# Pictures from a folder (`input_file.c`)

`worker_thread` publishes the files of a folder.  With the option `existing` it goes through the list
that `scandir` made, again and again; otherwise it reads what `inotify` reports, and publishes each
file that is closed or moved into the folder.

* `served_eq`: the existing pictures are published in turn;
* `nothing_lost_iff`: of the events that one `read` returns only the first is looked at, so that a
  picture is lost exactly if a `read` returns another event that is wanted.
-/
import ProjectTank.ClientThread
import ProjectTank.StreamSampling
import ProjectTank.Transition

open ClientThread StreamSampling

namespace FolderSource

/-! ## Existing files -/

/-- Whether `worker_thread` takes a file for a picture. -/
def isJpg (name : Text) : Bool := contains name ".jpg".toList || contains name ".JPG".toList

/-- `currentFileNumber`, `hasJpgFile`, the names of the files that have been published; `quits` once
the loop is left since there is no picture. -/
structure Walk where
  current : ℕ := 0
  hasJpgFile : Bool := false
  served : List Text := []
  quits : Bool := false
  deriving DecidableEq

/-- One turn of the loop, while the files can be opened and are not removed; `none` where
`fileList[currentFileNumber]` does not exist. -/
def turn (fileList : List Text) (w : Walk) : Option Walk :=
  if w.quits then some w
  else
    (fileList[w.current]?).map fun name =>
      if isJpg name then
        { w with
          hasJpgFile := true
          served := w.served ++ [name]
          current := if w.current + 1 = fileList.length then 0 else w.current + 1 }
      else if w.current + 1 = fileList.length then
        if w.hasJpgFile then { w with current := 0 }
        else { w with current := w.current + 1, quits := true }
      else { w with current := w.current + 1 }

/-- The walk after so many turns. -/
def turns (fileList : List Text) : ℕ → Option Walk
  | 0 => some {}
  | n + 1 => (turns fileList n).bind (turn fileList)

/-- The pictures among the files. -/
def pictures (fileList : List Text) : List Text := fileList.filter isJpg

variable {fileList : List Text}

/-- What holds after `n` turns, as long as the loop is not left. -/
structure Follows (fileList : List Text) (n : ℕ) (w : Walk) : Prop where
  current : w.current = n % fileList.length
  served : w.served = (List.replicate (n / fileList.length) (pictures fileList)).flatten ++
    pictures (fileList.take (n % fileList.length))
  hasJpgFile : w.hasJpgFile = true ↔ w.served ≠ []
  stays : w.quits = false

theorem pictures_take_succ {k : ℕ} {file : Text} (h : fileList[k]? = some file) :
    pictures (fileList.take (k + 1)) =
      pictures (fileList.take k) ++ if isJpg file then [file] else [] := by
  obtain ⟨hlt, hfile⟩ := List.getElem?_eq_some_iff.mp h
  unfold pictures
  rw [List.take_succ_eq_append_getElem hlt, List.filter_append, List.filter_singleton, hfile]
  cases isJpg file <;> rfl

/-- The next turn is in the same round, or begins another one. -/
theorem next_turn {n L : ℕ} (hL : 0 < L) :
    (n % L + 1 = L ∧ (n + 1) % L = 0 ∧ (n + 1) / L = n / L + 1) ∨
    (n % L + 1 < L ∧ (n + 1) % L = n % L + 1 ∧ (n + 1) / L = n / L) := by
  have hlt := Nat.mod_lt n hL
  obtain ⟨hmod, hturn⟩ := count_succ (k := n) hL
  rw [Nat.succ_div]
  by_cases h : n % L + 1 < L
  · rw [if_pos h] at hmod
    rw [if_neg fun hdvd => hturn.mp h (Nat.mod_eq_zero_of_dvd hdvd)]
    exact Or.inr ⟨h, hmod.symm, rfl⟩
  · rw [if_neg h] at hmod
    rw [if_pos (Nat.dvd_of_mod_eq_zero hmod.symm)]
    exact Or.inl ⟨by omega, hmod.symm, rfl⟩

/-- One turn over the file that is next. -/
theorem turn_eq {w : Walk} {file : Text} (hstays : w.quits = false)
    (hfile : fileList[w.current]? = some file) :
    turn fileList w = some
      (if isJpg file then
        { w with
          hasJpgFile := true
          served := w.served ++ [file]
          current := if w.current + 1 = fileList.length then 0 else w.current + 1 }
      else if w.current + 1 = fileList.length then
        if w.hasJpgFile then { w with current := 0 }
        else { w with current := w.current + 1, quits := true }
      else { w with current := w.current + 1 }) := by
  rw [turn, if_neg (by rw [hstays]; exact Bool.false_ne_true), hfile]
  rfl

/-- What a turn adds to the names, whatever its file is. -/
theorem Follows.served_next {n : ℕ} {w : Walk} (h : Follows fileList n w) (hL : 0 < fileList.length)
    {file : Text} (hfile : fileList[w.current]? = some file) :
    w.served ++ (if isJpg file then [file] else []) =
      (List.replicate ((n + 1) / fileList.length) (pictures fileList)).flatten ++
        pictures (fileList.take ((n + 1) % fileList.length)) := by
  have hmore := pictures_take_succ hfile
  rw [h.current] at hmore
  rw [h.served, List.append_assoc, ← hmore]
  rcases next_turn (n := n) hL with ⟨hlast, hmod, hdiv⟩ | ⟨-, hmod, hdiv⟩
  · rw [hlast, List.take_length, hmod, hdiv, List.replicate_succ', List.flatten_concat]
    exact (List.append_nil _).symm
  · rw [hmod, hdiv]

theorem Follows.turn {n : ℕ} {w : Walk} (h : Follows fileList n w) (hjpg : pictures fileList ≠ []) :
    ∃ w', turn fileList w = some w' ∧ Follows fileList (n + 1) w' := by
  have hL : 0 < fileList.length := by
    cases fileList with
    | nil => exact absurd rfl hjpg
    | cons file files => exact Nat.succ_pos _
  have hlt : w.current < fileList.length := by
    rw [h.current]
    exact Nat.mod_lt n hL
  have hfile : fileList[w.current]? = some fileList[w.current] := List.getElem?_eq_getElem hlt
  have hserved := h.served_next hL hfile
  have hcurrent := h.current
  generalize fileList[w.current] = file at hfile hserved
  refine ⟨_, turn_eq h.stays hfile, ?_⟩
  cases hisJpg : isJpg file with
  | true =>
      rw [hisJpg, if_pos rfl] at hserved
      rw [if_pos rfl]
      refine ⟨?_, hserved, iff_of_true rfl (List.append_ne_nil_of_right_ne_nil _ (List.cons_ne_nil _ _)),
        h.stays⟩
      change (if w.current + 1 = fileList.length then 0 else w.current + 1) = _
      rcases next_turn (n := n) hL with ⟨hlast, hmod, -⟩ | ⟨hmore, hmod, -⟩
      · rw [if_pos (by omega), hmod]
      · rw [if_neg (by omega), hmod, hcurrent]
  | false =>
      rw [hisJpg, if_neg Bool.false_ne_true, List.append_nil] at hserved
      rw [if_neg Bool.false_ne_true]
      rcases next_turn (n := n) hL with ⟨hlast, hmod, hdiv⟩ | ⟨hmore, hmod, -⟩
      · -- a whole round has been gone, so there was a picture
        have hround : w.served ≠ [] := by
          rw [hserved, hdiv, List.replicate_succ', List.flatten_concat]
          intro hnil
          exact hjpg (List.append_eq_nil_iff.mp (List.append_eq_nil_iff.mp hnil).1).2
        rw [if_pos (by omega), if_pos (h.hasJpgFile.mpr hround)]
        exact ⟨hmod.symm, hserved, h.hasJpgFile, h.stays⟩
      · rw [if_neg (by omega)]
        exact ⟨by rw [hmod, ← hcurrent], hserved, h.hasJpgFile, h.stays⟩

/-- A folder of four entries, of which two are pictures. -/
def holiday : List Text := [".".toList, "..".toList, "a.jpg".toList, "b.JPG".toList]

/-- The options: the name that a file must have, if there is one, and whether files are removed. -/
structure Config where
  filename : Option Text
  rm : Bool

/-- Whether a change of this file is not ignored. -/
def Config.wanted (cfg : Config) (name : Text) : Bool :=
  match cfg.filename with
  | none => true
  | some filename => name = filename

/-- The files of the folder, the events that have not been read, the name of the file that is going to
be opened, the pictures published, whether the loop goes on; and the names of all events that have been
read. -/
structure Watcher where
  files : Text → Option (List UInt8) := fun _ => none
  queue : List Text := []
  pending : Option Text := none
  published : List (Text × List UInt8) := []
  runs : Bool := true
  taken : List Text := []

/-- A file is closed or moved into the folder, another program removes one, `read` returns this many
events, the file of the first is opened. -/
inductive Event
  | close (name : Text) (contents : List UInt8)
  | remove (name : Text)
  | read (count : ℕ)
  | load

/-- `read` returns at least one event, and the buffer has room for many. -/
def Watcher.read (cfg : Config) (x : Watcher) (count : ℕ) : Option Watcher :=
  if x.runs ∧ x.pending = none ∧ count ≤ x.queue.length then
    match x.queue.take count with
    | [] => none
    | name :: _ =>
        some { x with
          queue := x.queue.drop count
          pending := if cfg.wanted name then some name else none
          taken := x.taken ++ x.queue.take count }
  else none

/-- The file is opened and read to the global buffer. -/
def Watcher.load (cfg : Config) (x : Watcher) : Option Watcher :=
  match x.pending with
  | none => none
  | some name =>
      if x.runs then
        match x.files name with
        | none => some { x with runs := false }
        | some contents =>
            some { x with
              pending := none
              published := x.published ++ [(name, contents)]
              files := if cfg.rm then Function.update x.files name none else x.files }
      else none

def step (cfg : Config) (x : Watcher) : Event → Option Watcher
  | .close name contents =>
      some { x with
        files := Function.update x.files name (some contents), queue := x.queue ++ [name] }
  | .remove name => some { x with files := Function.update x.files name none }
  | .read count => x.read cfg count
  | .load => x.load cfg

def machine (cfg : Config) : Machine Watcher Event := ⟨{}, step cfg⟩

/-- The changes that are wanted have all been published, but for the one that is being looked at. -/
def Complete (cfg : Config) (x : Watcher) : Prop :=
  x.published.map Prod.fst ++ x.pending.toList = x.taken.filter cfg.wanted

/-- A `read` that returns another wanted event behind the first. -/
def Overtaken (cfg : Config) (x : Watcher) (e : Event) : Prop :=
  ∃ count, e = .read count ∧ ∃ name ∈ (x.queue.take count).drop 1, cfg.wanted name = true

section
variable {cfg : Config} {x x' : Watcher}

theorem read_cases {count : ℕ} (h : x.read cfg count = some x') :
    x.pending = none ∧ ∃ name rest, x.queue.take count = name :: rest ∧
      x' = { x with
        queue := x.queue.drop count
        pending := if cfg.wanted name then some name else none
        taken := x.taken ++ x.queue.take count } := by
  unfold Watcher.read at h
  split at h
  · rename_i hready
    split at h
    · cases h
    · rename_i name rest htake
      cases h
      exact ⟨hready.2.1, name, rest, htake, rfl⟩
  · cases h

/-- The file of a change is published, or the loop is left. -/
theorem load_cases (h : x.load cfg = some x') : ∃ name, x.pending = some name ∧
    (x' = { x with runs := false } ∨
      ∃ contents, x.files name = some contents ∧ x' = { x with
        pending := none
        published := x.published ++ [(name, contents)]
        files := if cfg.rm then Function.update x.files name none else x.files }) := by
  unfold Watcher.load at h
  split at h
  · cases h
  · rename_i name hpending
    refine ⟨name, hpending, ?_⟩
    split at h
    · split at h
      · cases h
        exact Or.inl rfl
      · rename_i contents hfile
        cases h
        exact Or.inr ⟨contents, hfile, rfl⟩
    · cases h

/-- A `read` keeps the changes complete exactly if no event behind the first is wanted. -/
theorem complete_read_iff {count : ℕ} (hx : Complete cfg x) (h : x.read cfg count = some x') :
    Complete cfg x' ↔ ¬ Overtaken cfg x (.read count) := by
  obtain ⟨hpending, name, rest, htake, rfl⟩ := read_cases h
  unfold Complete at hx ⊢
  rw [hpending, Option.toList_none, List.append_nil] at hx
  have hfirst : (if cfg.wanted name then some name else none).toList = [name].filter cfg.wanted := by
    rw [List.filter_singleton]
    cases cfg.wanted name <;> rfl
  have hsplit : (name :: rest).filter cfg.wanted =
      [name].filter cfg.wanted ++ rest.filter cfg.wanted := by
    rw [← List.filter_append]
    rfl
  change x.published.map Prod.fst ++ _ = (x.taken ++ x.queue.take count).filter cfg.wanted ↔ _
  rw [hfirst, htake, List.filter_append, hx, hsplit, List.append_cancel_left_eq,
    List.self_eq_append_right, List.filter_eq_nil_iff]
  constructor
  · rintro hno ⟨count', heq, other, hother, hwanted⟩
    cases heq
    rw [htake] at hother
    exact hno other hother hwanted
  · intro hno other hother hwanted
    refine hno ⟨count, rfl, other, ?_, hwanted⟩
    rw [htake]
    exact hother

theorem complete_step_iff {e : Event} (hx : Complete cfg x) (h : step cfg x e = some x') :
    Complete cfg x' ↔ ¬ Overtaken cfg x e := by
  cases e with
  | close name contents =>
      cases h
      exact iff_of_true hx fun ⟨_, heq, _⟩ => by cases heq
  | remove name =>
      cases h
      exact iff_of_true hx fun ⟨_, heq, _⟩ => by cases heq
  | read count => exact complete_read_iff hx h
  | load =>
      refine iff_of_true ?_ fun ⟨_, heq, _⟩ => by cases heq
      obtain ⟨name, hpending, rfl | ⟨contents, -, rfl⟩⟩ := load_cases h
      · exact hx
      · unfold Complete at hx ⊢
        rw [hpending] at hx
        rw [← hx, List.map_append]
        exact List.append_nil _

end

/-- **No picture is lost** through a run exactly if no `read` of it returns a wanted event behind
another event. -/
theorem nothing_lost_iff (cfg : Config) (es : List Event) :
    (machine cfg).Throughout (Complete cfg) es ↔ (machine cfg).Avoids (Overtaken cfg) es :=
  Machine.throughout_iff_avoids (I := fun _ => True) trivial (show Complete cfg {} from rfl)
    (fun _ _ _ _ _ => trivial) (fun _ _ _ _ hx hs => complete_step_iff hx hs) es

end FolderSource
