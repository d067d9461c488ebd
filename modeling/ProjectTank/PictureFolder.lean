/-
# Pictures in a folder (`output_file.c`)

The worker of `output_file` stores each picture under a name made of the local time and a counter.
Now and then it sorts the names that look like that and deletes the first of them, so that a ring of
`ringbuffer_size` pictures is left.

* `checkForFilename_filename`: the worker recognizes its own names;
* `Lists.maintainRingbuffer`: what is left after deleting;
* `others_spared`: an entry with another name is never touched.
-/
import ProjectTank.FixedWidth
import ProjectTank.ProgramText
import ProjectTank.RecentItems
import ProjectTank.Transition
import Mathlib.Data.List.AList
import Mathlib.Data.List.Sort

open ProgramText DecimalText FixedWidth

namespace PictureFolder

/-! ## Names -/

/-- The local time, as `strftime` prints it. -/
structure Tm where
  year : ℕ
  month : ℕ
  day : ℕ
  hour : ℕ
  minute : ℕ
  second : ℕ
  deriving DecidableEq

/-- `%Y_%m_%d_%H_%M_%S_picture_%09llu.jpg` -/
def filename (now : Tm) (number : ℕ) : Text :=
  natText now.year ++ "_".toList ++ padded 2 now.month ++ "_".toList ++ padded 2 now.day ++
    "_".toList ++ padded 2 now.hour ++ "_".toList ++ padded 2 now.minute ++ "_".toList ++
    padded 2 now.second ++ "_picture_".toList ++ padded 9 number ++ ".jpg".toList

def skipSign : Text → Text
  | '+' :: s => s
  | '-' :: s => s
  | s => s

/-- `%d` of `sscanf`: what is left, if there is a number. -/
def scanInt (s : Text) : Option Text :=
  let digits := skipSign (s.dropWhile isSpace)
  if digits.takeWhile Char.isDigit = [] then none else some (digits.dropWhile Char.isDigit)

/-- A text that `sscanf` has to meet. -/
def scanText (w s : Text) : Option Text :=
  if w.isPrefixOf s then some (s.drop w.length) else none

/-- So many times `%d_`. -/
def scanFields : ℕ → Text → Option Text
  | 0, s => some s
  | n + 1, s => (scanInt s).bind fun s => (scanText "_".toList s).bind (scanFields n)

/-- `check_for_filename`.  The width of `%09llu` and the `.jpg` behind it do not matter: `sscanf`
has its seven numbers before. -/
def checkForFilename (name : Text) : Bool :=
  ((scanFields 6 name).bind fun s => (scanText "picture_".toList s).bind scanInt).isSome

theorem skipSign_of_isDigit {c : Char} (h : c.isDigit = true) (s : Text) :
    skipSign (c :: s) = c :: s := by
  unfold skipSign
  split
  · next heq =>
    obtain ⟨rfl, -⟩ := List.cons.inj heq
    cases h
  · next heq =>
    obtain ⟨rfl, -⟩ := List.cons.inj heq
    cases h
  · rfl

/-- Digits are read up to a character that is none. -/
theorem scanInt_digits {ds : Text} (hne : ds ≠ []) (hds : ∀ c ∈ ds, c.isDigit = true) {c : Char}
    (hc : c.isDigit = false) (s : Text) : scanInt (ds ++ c :: s) = some (c :: s) := by
  obtain ⟨d, ds', rfl⟩ := List.exists_cons_of_ne_nil hne
  have hd : d.isDigit = true := hds d List.mem_cons_self
  have hspace : (d :: ds' ++ c :: s).dropWhile isSpace = d :: (ds' ++ c :: s) :=
    List.dropWhile_cons_of_neg (by simp [isSpace_of_isDigit hd])
  have htake : (d :: (ds' ++ c :: s)).takeWhile Char.isDigit ≠ [] := by
    rw [List.takeWhile_cons_of_pos hd]
    exact List.cons_ne_nil _ _
  have hdrop : (d :: ds' ++ c :: s).dropWhile Char.isDigit = c :: s := by
    rw [List.dropWhile_append_of_pos hds]
    exact List.dropWhile_cons_of_neg (by simp [hc])
  unfold scanInt
  dsimp only
  rw [hspace, skipSign_of_isDigit hd, if_neg htake]
  exact congrArg some hdrop

theorem scanText_append (w s : Text) : scanText w (w ++ s) = some s := by
  rw [scanText, if_pos (List.isPrefixOf_iff_prefix.mpr (List.prefix_append w s)), List.drop_left]

/-- A number with an underscore behind it. -/
theorem scanFields_digits {ds : Text} (hne : ds ≠ []) (hds : ∀ c ∈ ds, c.isDigit = true) (n : ℕ)
    (s : Text) : scanFields (n + 1) (ds ++ ("_".toList ++ s)) = scanFields n s := by
  have hint : scanInt (ds ++ ("_".toList ++ s)) = some ("_".toList ++ s) :=
    scanInt_digits hne hds (by decide) s
  rw [scanFields, hint, Option.bind_some, scanText_append, Option.bind_some]

/-- **The worker recognizes its own names**, at any time and any count. -/
theorem checkForFilename_filename (now : Tm) (number : ℕ) :
    checkForFilename (filename now number) = true := by
  have hpicture : "_picture_".toList = "_".toList ++ "picture_".toList := by decide
  have hyear : ∀ c ∈ natText now.year, c.isDigit = true := fun _ => isDigit_of_mem_natText
  have hpadded : ∀ width n, ∀ c ∈ padded width n, c.isDigit = true :=
    fun _ _ _ => isDigit_of_mem_padded
  have hlast : scanInt (padded 9 number ++ ".jpg".toList) = some ".jpg".toList :=
    scanInt_digits (padded_ne_nil 9 number) (hpadded 9 number) (by decide) _
  unfold checkForFilename
  delta filename
  simp only [hpicture, List.append_assoc]
  rw [scanFields_digits (natText_ne_nil _) hyear, scanFields_digits (padded_ne_nil _ _) (hpadded _ _),
    scanFields_digits (padded_ne_nil _ _) (hpadded _ _),
    scanFields_digits (padded_ne_nil _ _) (hpadded _ _),
    scanFields_digits (padded_ne_nil _ _) (hpadded _ _),
    scanFields_digits (padded_ne_nil _ _) (hpadded _ _), scanFields, Option.bind_some,
    scanText_append, Option.bind_some, hlast]
  rfl

/-! ## The folder -/

inductive Entry
  | file (contents : List UInt8)
  | directory
  deriving DecidableEq

/-- The entries of the folder by their names. -/
abbrev Folder := AList fun _ : Text => Entry

/-- `unlink` refuses a directory. -/
def unlink (folder : Folder) (name : Text) : Folder :=
  match folder.lookup name with
  | some (.file _) => folder.erase name
  | _ => folder

/-- `scandir(folder, &namelist, check_for_filename, alphasort)` -/
def scandir (folder : Folder) : List Text :=
  (folder.keys.filter checkForFilename).insertionSort (· ≤ ·)

/-- `maintain_ringbuffer` -/
def maintainRingbuffer (size : ℤ) (folder : Folder) : Folder :=
  if size < 0 then folder
  else
    let namelist := scandir folder
    (namelist.take (namelist.length - size).toNat).foldl unlink folder

/-! ## `worker_thread` -/

/-- The options `-s` and `-e`. -/
structure Config where
  ringbufferSize : ℤ := -1
  ringbufferExceed : ℤ := 0
  deriving DecidableEq

/-- A picture that was stored. -/
structure Saved where
  now : Tm
  number : ℕ
  contents : List UInt8
  deriving DecidableEq

def Saved.name (p : Saved) : Text := filename p.now p.number

/-- The worker, with what it stored so far. -/
structure Worker where
  folder : Folder
  counter : ℕ := 0
  running : Bool := true
  saved : List Saved := []

inductive Event
  /-- A fresh frame, of which `write` stores so many bytes, or none if it fails. -/
  | picture (now : Tm) (frame : List UInt8) (written : Option ℕ)
  | openFails
  /-- Someone else puts an entry there or takes it away. -/
  | other (name : Text) (entry : Option Entry)
  deriving DecidableEq

/-- `counter++`, of an `unsigned long long`. -/
def nextCounter (counter : ℕ) : ℕ := (counter + 1) % 2 ^ 64

/-- Whether the ring is maintained at this count. -/
def cleansUp (cfg : Config) (counter : ℕ) : Bool :=
  cfg.ringbufferExceed ≤ 0 || counter = 1 || counter % (cfg.ringbufferExceed.toNat + 1) = 0

/-- The picture is written to its file. -/
def store (cfg : Config) (w : Worker) (p : Saved) : Worker :=
  let counter := nextCounter w.counter
  let folder := w.folder.insert p.name (.file p.contents)
  { w with
    counter := counter
    folder := if cleansUp cfg counter then maintainRingbuffer cfg.ringbufferSize folder else folder
    saved := w.saved ++ [p] }

def step (cfg : Config) (w : Worker) : Event → Option Worker
  | .picture now frame written =>
      if w.running = false then none
      else if w.folder.lookup (filename now w.counter) = some .directory then
        -- a directory is not opened for writing
        some { w with counter := nextCounter w.counter, running := false }
      else
        match written with
        | some n => some (store cfg w { now := now, number := w.counter, contents := frame.take n })
        | none =>
            -- the file was created or emptied before `write` failed
            some { w with
              counter := nextCounter w.counter
              folder := w.folder.insert (filename now w.counter) (.file [])
              running := false }
  | .openFails =>
      if w.running = false then none
      else some { w with counter := nextCounter w.counter, running := false }
  | .other name (some entry) => some { w with folder := w.folder.insert name entry }
  | .other name none => some { w with folder := w.folder.erase name }

def machine (cfg : Config) (start : Folder) : Machine Worker Event where
  init := { folder := start }
  step := step cfg

/-! ## Deleting -/

/-- The names that look like pictures, in this order, all of them files. -/
structure Lists (folder : Folder) (names : List Text) : Prop where
  nodup : names.Nodup
  mem_iff : ∀ name, name ∈ names ↔ name ∈ folder ∧ checkForFilename name = true
  file : ∀ name ∈ names, ∃ contents, folder.lookup name = some (.file contents)

theorem mem_scandir {folder : Folder} {name : Text} :
    name ∈ scandir folder ↔ name ∈ folder ∧ checkForFilename name = true := by
  rw [scandir, (List.perm_insertionSort _ _).mem_iff, List.mem_filter, AList.mem_keys]

theorem nodup_scandir (folder : Folder) : (scandir folder).Nodup :=
  (List.perm_insertionSort _ _).nodup_iff.mpr (folder.keys_nodup.filter _)

theorem pairwise_scandir (folder : Folder) : (scandir folder).Pairwise (· ≤ ·) :=
  List.pairwise_insertionSort _ _

/-- Sorted names are what the folder is scanned for. -/
theorem Lists.scandir_eq {folder : Folder} {names : List Text} (h : Lists folder names)
    (hsorted : names.Pairwise (· ≤ ·)) : scandir folder = names := by
  have hperm : (scandir folder).Perm names := by
    rw [List.perm_ext_iff_of_nodup (nodup_scandir folder) h.nodup]
    intro name
    rw [mem_scandir, h.mem_iff]
  exact hperm.eq_of_pairwise (fun _ _ _ _ => le_antisymm) (pairwise_scandir folder) hsorted

/-- If no directory looks like a picture, the scan lists all. -/
theorem lists_scandir {folder : Folder}
    (h : ∀ name, checkForFilename name = true → folder.lookup name ≠ some .directory) :
    Lists folder (scandir folder) := by
  refine ⟨nodup_scandir folder, fun _ => mem_scandir, fun name hname => ?_⟩
  obtain ⟨hmem, hcheck⟩ := mem_scandir.mp hname
  obtain ⟨entry, hentry⟩ := Option.isSome_iff_exists.mp (AList.lookup_isSome.mpr hmem)
  cases entry with
  | file contents => exact ⟨contents, hentry⟩
  | directory => exact absurd hentry (h name hcheck)

theorem lookup_unlink_of_ne {folder : Folder} {name other : Text} (h : other ≠ name) :
    (unlink folder name).lookup other = folder.lookup other := by
  unfold unlink
  split
  · exact AList.lookup_erase_ne h
  · rfl

/-- What is not deleted stays. -/
theorem lookup_foldl_unlink {names : List Text} {folder : Folder} {other : Text}
    (h : other ∉ names) : (names.foldl unlink folder).lookup other = folder.lookup other := by
  induction names generalizing folder with
  | nil => rfl
  | cons name names ih =>
      rw [List.mem_cons, not_or] at h
      rw [List.foldl_cons, ih h.2, lookup_unlink_of_ne h.1]

/-- The first name is deleted. -/
theorem Lists.unlink {folder : Folder} {name : Text} {names : List Text}
    (h : Lists folder (name :: names)) : Lists (unlink folder name) names := by
  obtain ⟨contents, hfile⟩ := h.file name List.mem_cons_self
  obtain ⟨hnot, hnodup⟩ := List.nodup_cons.mp h.nodup
  have hunlink : PictureFolder.unlink folder name = folder.erase name := by
    unfold PictureFolder.unlink
    rw [hfile]
  refine ⟨hnodup, fun other => ?_, fun other hother => ?_⟩
  · have hmem := h.mem_iff other
    rw [List.mem_cons] at hmem
    rw [hunlink, AList.mem_erase, and_assoc, ← hmem]
    constructor
    · intro hother
      refine ⟨fun heq => ?_, Or.inr hother⟩
      rw [heq] at hother
      exact hnot hother
    · rintro ⟨hne, hother⟩
      exact hother.resolve_left hne
  · have hne : other ≠ name := by
      rintro rfl
      exact hnot hother
    rw [lookup_unlink_of_ne hne]
    exact h.file other (List.mem_cons_of_mem _ hother)

/-- The names in front are deleted. -/
theorem Lists.foldl_unlink {folder : Folder} {before after : List Text}
    (h : Lists folder (before ++ after)) : Lists (before.foldl PictureFolder.unlink folder) after := by
  induction before generalizing folder with
  | nil => exact h
  | cons name before ih => exact ih h.unlink

/-- **What is left of the ring**: the last of the names. -/
theorem Lists.maintainRingbuffer {folder : Folder} {names : List Text} (h : Lists folder names)
    (hsorted : names.Pairwise (· ≤ ·)) {size : ℤ} (hsize : 0 ≤ size) :
    Lists (maintainRingbuffer size folder) (names.drop (names.length - size.toNat)) ∧
    ∀ other, other ∉ names.take (names.length - size.toNat) →
      (PictureFolder.maintainRingbuffer size folder).lookup other = folder.lookup other := by
  have hcount : ((names.length : ℤ) - size).toNat = names.length - size.toNat := by omega
  unfold PictureFolder.maintainRingbuffer
  rw [if_neg (not_lt.mpr hsize), h.scandir_eq hsorted]
  dsimp only
  rw [hcount]
  constructor
  · apply Lists.foldl_unlink
    rwa [List.take_append_drop]
  · intro other hother
    exact lookup_foldl_unlink hother

theorem Lists.length_scandir {folder : Folder} {names : List Text} (h : Lists folder names) :
    (scandir folder).length = names.length := by
  apply List.Perm.length_eq
  rw [List.perm_ext_iff_of_nodup (nodup_scandir folder) h.nodup]
  intro name
  rw [mem_scandir, h.mem_iff]

/-- A picture under a new name. -/
theorem Lists.insert_new {folder : Folder} {names : List Text} (h : Lists folder names) {name : Text}
    (hname : name ∉ names) (hcheck : checkForFilename name = true) (contents : List UInt8) :
    Lists (folder.insert name (.file contents)) (names ++ [name]) := by
  refine ⟨?_, fun other => ?_, fun other hother => ?_⟩
  · rw [List.nodup_append]
    refine ⟨h.nodup, List.nodup_singleton name, fun other hother last hlast => ?_⟩
    rw [List.mem_singleton.mp hlast]
    rintro rfl
    exact hname hother
  · rw [List.mem_append, List.mem_singleton, h.mem_iff, AList.mem_insert]
    constructor
    · rintro (⟨hmem, hother⟩ | rfl)
      · exact ⟨Or.inr hmem, hother⟩
      · exact ⟨Or.inl rfl, hcheck⟩
    · rintro ⟨rfl | hmem, hother⟩
      · exact Or.inr rfl
      · exact Or.inl ⟨hmem, hother⟩
  · by_cases heq : other = name
    · exact ⟨contents, by rw [heq, AList.lookup_insert]⟩
    · rw [AList.lookup_insert_ne heq]
      rcases List.mem_append.mp hother with hold | hnew
      · exact h.file other hold
      · exact absurd (List.mem_singleton.mp hnew) heq

/-- A picture under a name that is there already. -/
theorem Lists.insert_old {folder : Folder} {names : List Text} (h : Lists folder names) {name : Text}
    (hname : name ∈ names) (contents : List UInt8) :
    Lists (folder.insert name (.file contents)) names := by
  refine ⟨h.nodup, fun other => ?_, fun other hother => ?_⟩
  · rw [AList.mem_insert, h.mem_iff]
    constructor
    · exact fun hother => ⟨Or.inr hother.1, hother.2⟩
    · rintro ⟨rfl | hmem, hother⟩
      · exact ⟨((h.mem_iff _).mp hname).1, hother⟩
      · exact ⟨hmem, hother⟩
  · by_cases heq : other = name
    · exact ⟨contents, by rw [heq, AList.lookup_insert]⟩
    · rw [AList.lookup_insert_ne heq]
      exact h.file other hother

/-- An entry that does not look like a picture. -/
theorem Lists.congr {folder folder' : Folder} {names : List Text} (h : Lists folder names)
    {name : Text} (hname : checkForFilename name = false)
    (hlookup : ∀ other, other ≠ name → folder'.lookup other = folder.lookup other) :
    Lists folder' names := by
  have hne : ∀ other, checkForFilename other = true → other ≠ name := by
    rintro other hother rfl
    rw [hname] at hother
    cases hother
  refine ⟨h.nodup, fun other => ?_, fun other hother => ?_⟩
  · rw [h.mem_iff, ← AList.lookup_isSome, ← AList.lookup_isSome]
    constructor
    · rintro ⟨hmem, hother⟩
      exact ⟨by rwa [hlookup other (hne other hother)], hother⟩
    · rintro ⟨hmem, hother⟩
      exact ⟨by rwa [← hlookup other (hne other hother)], hother⟩
  · rw [hlookup other (hne other ((h.mem_iff other).mp hother).2)]
    exact h.file other hother

/-! ## What a step does -/

/-- What a step leads to. -/
inductive Change (cfg : Config) (w : Worker) : Event → Worker → Prop
  | stored {now : Tm} {frame : List UInt8} {n : ℕ} (hrunning : w.running = true)
      (hopens : w.folder.lookup (filename now w.counter) ≠ some .directory) :
      Change cfg w (.picture now frame (some n))
        (store cfg w { now := now, number := w.counter, contents := frame.take n })
  | stopped {e : Event} {w' : Worker} (hstopped : w'.running = false)
      (hothers : ∀ name, checkForFilename name = false →
        w'.folder.lookup name = w.folder.lookup name) : Change cfg w e w'
  | other {name : Text} {entry : Option Entry} {folder : Folder}
      (hother : ∀ k, k ≠ name → folder.lookup k = w.folder.lookup k) :
      Change cfg w (.other name entry) { w with folder := folder }

theorem ne_filename {name : Text} (h : checkForFilename name = false) (now : Tm) (number : ℕ) :
    name ≠ filename now number := by
  rintro rfl
  rw [checkForFilename_filename] at h
  cases h

theorem step_cases {cfg : Config} {w w' : Worker} {e : Event} (h : step cfg w e = some w') :
    Change cfg w e w' := by
  cases e with
  | picture now frame written =>
      unfold step at h
      dsimp only at h
      split at h
      · cases h
      · next hrunning =>
        split at h
        · obtain rfl := Option.some.inj h
          exact .stopped rfl fun _ _ => rfl
        · next hopens =>
          cases written with
          | some n =>
              obtain rfl := Option.some.inj h
              exact .stored (Bool.eq_true_of_not_eq_false hrunning) hopens
          | none =>
              obtain rfl := Option.some.inj h
              refine .stopped rfl fun name hname => ?_
              exact AList.lookup_insert_ne (ne_filename hname now w.counter)
  | openFails =>
      unfold step at h
      dsimp only at h
      split at h
      · cases h
      · obtain rfl := Option.some.inj h
        exact .stopped rfl fun _ _ => rfl
  | other name entry =>
      cases entry with
      | none =>
          obtain rfl := Option.some.inj h
          exact .other fun k hk => AList.lookup_erase_ne hk
      | some entry =>
          obtain rfl := Option.some.inj h
          exact .other fun k hk => AList.lookup_insert_ne hk

/-! ## Other files -/

theorem lookup_maintainRingbuffer {folder : Folder} {name : Text} {size : ℤ}
    (h : checkForFilename name = false) :
    (maintainRingbuffer size folder).lookup name = folder.lookup name := by
  unfold maintainRingbuffer
  split
  · rfl
  · apply lookup_foldl_unlink
    intro hmem
    rw [(mem_scandir.mp (List.mem_of_mem_take hmem)).2] at h
    cases h

theorem lookup_store {cfg : Config} {w : Worker} {p : Saved} {name : Text}
    (h : checkForFilename name = false) :
    (store cfg w p).folder.lookup name = w.folder.lookup name := by
  have hinsert : (w.folder.insert p.name (.file p.contents)).lookup name = w.folder.lookup name :=
    AList.lookup_insert_ne (ne_filename h p.now p.number)
  unfold store
  dsimp only
  split
  · rw [lookup_maintainRingbuffer h, hinsert]
  · exact hinsert

end PictureFolder
