/-
# The files that the server sends (`Guy/peter/web_fixed.py`)

Before the commands, `do_GET` answers three kinds of paths with files: `/` redirects to
the page, `/index.html` is the page, and every path that ends in `.mp3` is opened as it
stands behind its first character.  `open` resolves such a name in the working directory,
so what the handler reaches is decided by the segments of the path alone.

* `opened_eq`: the one name that is opened for an audio path, whether or not there is
  such a file;
* `opened_inside_iff`: it lies in the working directory if and only if its segments come
  back down through all the directories that they have left; and in every working
  directory if and only if it is relative and in no initial part of it are there more
  `..` than names.
-/
import ProjectTank.DirectoryWalk
import ProjectTank.TankServer

open ProgramText DecimalText SeparatedText TankServer DirectoryWalk

namespace StaticFiles

/-! ## Sending a file -/

/-- What `open` and `read` come to for a file name: the bytes of a file,
`FileNotFoundError`, or another exception. -/
inductive ReadResult
  | content (bytes : List UInt8)
  | notFound
  | raising
  deriving DecidableEq

/-- What goes back for a file. -/
inductive Reply
  | response (code : ℕ) (headers : List (Text × Text)) (body : List UInt8)
  | sendError (code : ℕ) (message : Text)
  deriving DecidableEq

/-- A request in these branches: the file names that are opened, and what goes back. -/
structure Visit where
  opened : List Text := []
  replies : List Reply := []
  deriving DecidableEq

/-- The body of both branches that send a file; an exception other than
`FileNotFoundError` ends the handler. -/
def sendFile (files : Text → ReadResult) (name contentType path : Text) : Visit where
  opened := [name]
  replies := match files name with
    | .content bytes =>
        [.response 200
          [("Content-Type".toList, contentType),
            ("Content-Length".toList, natText bytes.length)] bytes]
    | .notFound => [.sendError 404 ("File Not Found: ".toList ++ path)]
    | .raising => []

/-- `do_GET` for a path that comes to one of these branches. -/
def doGet (files : Text → ReadResult) (path : Text) : Option Visit :=
  match route path with
  | .redirect =>
      some { replies := [.response 301 [("Location".toList, "/index.html".toList)] []] }
  | .indexPage => some (sendFile files "index_fixed.html".toList "text/html".toList path)
  | .audio => some (sendFile files (path.drop 1) "audio/mpeg".toList path)
  | _ => none

/-- The file names that `do_GET` passes to `open`. -/
def opened (files : Text → ReadResult) (path : Text) : List Text :=
  (doGet files path).elim [] Visit.opened

theorem route_of_mp3 {path : Text} (h : ".mp3".toList <:+ path) : route path = .audio := by
  have hroot : path ≠ "/".toList := by
    rintro rfl
    exact absurd h (by decide)
  have hindex : path ≠ "/index.html".toList := by
    rintro rfl
    exact absurd h (by decide)
  rw [route, if_neg hroot, if_neg hindex, if_pos (List.isSuffixOf_iff_suffix.mpr h)]

/-- For an audio path one name is opened: the path without its first character. -/
theorem opened_eq (files : Text → ReadResult) {path : Text} (h : ".mp3".toList <:+ path) :
    opened files path = [path.drop 1] := by
  rw [opened, doGet, route_of_mp3 h]
  rfl

/-! ## File names -/

/-- A segment of a file name: empty ones and `.` stay where they are, `..` goes to the parent. -/
def segmentStep (segment : Text) : Option (Step Text) :=
  if segment = [] ∨ segment = ".".toList then none
  else if segment = "..".toList then some .up
  else some (.down segment)

/-- The walk of a file name. -/
def steps (name : Text) : List (Step Text) := (name.splitOn '/').filterMap segmentStep

/-- A file name that begins with a slash is resolved from the root. -/
def isAbsolute (name : Text) : Bool := name.head? = some '/'

/-- Where a file name leads in a working directory. -/
def resolveName (cwd : List Text) (name : Text) : List Text :=
  resolve (if isAbsolute name then [] else cwd) (steps name)

/-- Everything that `do_GET` opens for a path lies in the working directory. -/
def OpensInside (files : Text → ReadResult) (cwd : List Text) (path : Text) : Prop :=
  ∀ name ∈ opened files path, Inside cwd (resolveName cwd name)

/-- The directories of the working directory that a file name leaves: the ones that it climbs
over, or all of them when it begins at the root. -/
def left (cwd : List Text) (name : Text) : List Text :=
  if isAbsolute name then cwd else cwd.drop (cwd.length - (normal (steps name)).climbs)

/-- A file name that goes down through the directories that it has left, and then on. -/
def ComesBack (cwd : List Text) (name : Text) : Prop :=
  ∃ segment rest, (normal (steps name)).names = left cwd name ++ segment :: rest

theorem inside_resolveName_iff {cwd : List Text} {name : Text} :
    Inside cwd (resolveName cwd name) ↔ ComesBack cwd name := by
  rw [ComesBack, ← inside_iff_exists, resolveName, left]
  by_cases habsolute : isAbsolute name = true
  · rw [if_pos habsolute, if_pos habsolute, resolve_root]
  · rw [if_neg habsolute, if_neg habsolute, inside_resolve_iff]

/-- What a directory can be called. -/
def IsName (segment : Text) : Prop := '/' ∉ segment ∧ segmentStep segment = some (.down segment)

theorem exists_isName_ne (names : List Text) : ∃ a, IsName a ∧ names.head? ≠ some a := by
  by_cases h : names.head? = some ['a']
  · refine ⟨['b'], ⟨by decide, rfl⟩, ?_⟩
    rw [h]
    decide
  · exact ⟨['a'], ⟨by decide, rfl⟩, h⟩

/-- A file name is safe in every working directory when it stays below it. -/
theorem inside_everywhere_iff {name : Text} (hnames : (normal (steps name)).names ≠ []) :
    (∀ cwd, (∀ dir ∈ cwd, IsName dir) → Inside cwd (resolveName cwd name)) ↔
      isAbsolute name = false ∧ StaysBelow (steps name) := by
  rw [← climbs_normal_eq_zero_iff]
  constructor
  · intro hall
    obtain ⟨a, ha, hhead⟩ := exists_isName_ne (normal (steps name)).names
    have hrelative : isAbsolute name = false := by
      rw [← Bool.not_eq_true]
      intro habsolute
      have hinside := hall [a] (by simpa using ha)
      rw [resolveName, if_pos habsolute, resolve_root] at hinside
      obtain ⟨segment, rest, hrest⟩ := inside_iff_exists.mp hinside
      rw [hrest] at hhead
      exact hhead rfl
    refine ⟨hrelative, ?_⟩
    by_contra hclimbs
    have hinside := hall (List.replicate (normal (steps name)).climbs a) fun dir hdir => by
      rw [List.eq_of_mem_replicate hdir]
      exact ha
    rw [resolveName, hrelative] at hinside
    exact not_inside_resolve_replicate hclimbs hhead hinside
  · rintro ⟨hrelative, hclimbs⟩ cwd -
    rw [resolveName, hrelative]
    exact inside_resolve_of_climbs_eq_zero hclimbs hnames cwd

/-! ## Audio paths -/

/-- The last segment of an audio path is a name. -/
theorem names_ne_nil_of_mp3 {path : Text} (h : ".mp3".toList <:+ path) :
    (normal (steps (path.drop 1))).names ≠ [] := by
  have hend : "mp3".toList <:+ path.drop 1 := by
    obtain ⟨front, rfl⟩ := h
    cases front with
    | nil => exact List.suffix_rfl
    | cons c front => exact ⟨front ++ ['.'], by simp⟩
  obtain ⟨front, segment, hsplit, hsegment⟩ := exists_splitOn_eq_snoc hend (by decide : '/' ∉ _)
  have hne : ∀ t : Text, ¬ "mp3".toList <:+ t → segment ≠ t := by
    rintro t ht rfl
    exact ht hsegment
  have hdown : segmentStep segment = some (.down segment) := by
    have hstays : ¬ (segment = [] ∨ segment = ".".toList) :=
      not_or.mpr ⟨hne _ (by decide), hne _ (by decide)⟩
    rw [segmentStep, if_neg hstays, if_neg (hne _ (by decide))]
  have hsteps : steps (path.drop 1) = front.filterMap segmentStep ++ [.down segment] := by
    rw [steps, hsplit, List.filterMap_append, List.filterMap_cons_some hdown, List.filterMap_nil]
  rw [hsteps, normal_snoc_down]
  exact List.append_ne_nil_of_right_ne_nil _ (List.cons_ne_nil _ _)

/-- **Only files of the working directory are opened** for an audio path when its segments
come back to it; whatever the working directory is, when they never leave it. -/
theorem opened_inside_iff (files : Text → ReadResult) {path : Text} (h : ".mp3".toList <:+ path) :
    (∀ cwd, OpensInside files cwd path ↔ ComesBack cwd (path.drop 1)) ∧
      ((∀ cwd, (∀ dir ∈ cwd, IsName dir) → OpensInside files cwd path) ↔
        isAbsolute (path.drop 1) = false ∧ StaysBelow (steps (path.drop 1))) := by
  simp only [OpensInside, opened_eq files h, List.forall_mem_singleton]
  exact ⟨fun cwd => inside_resolveName_iff, inside_everywhere_iff (names_ne_nil_of_mp3 h)⟩

/-- The sound of the page is in the working directory. -/
theorem gunshot_opens_inside :
    OpensInside (fun _ => .notFound) ["home".toList, "pi".toList] "/gunshot.mp3".toList :=
  ((opened_inside_iff (fun _ => .notFound) (by decide)).1 _).mpr ⟨"gunshot.mp3".toList, [], by decide⟩

/-- The parent of the working directory can be read. -/
theorem secret_opens_outside :
    ".mp3".toList <:+ "/../secret.mp3".toList ∧
      resolveName ["home".toList, "pi".toList] "../secret.mp3".toList =
        ["home".toList, "secret.mp3".toList] ∧
      ¬ OpensInside (fun _ => .content [7]) ["home".toList, "pi".toList]
        "/../secret.mp3".toList := by
  refine ⟨by decide, by decide, ?_⟩
  intro hinside
  exact absurd (hinside "../secret.mp3".toList (by decide)) (by decide)

end StaticFiles
