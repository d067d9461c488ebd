/-
# The files of the web server (`send_file`, `execute_cgi` in `httpd.c`)

What is no other request is taken for a file in the folder of the server.  Its name is cut off at the
first character that is neither a letter, a digit, a dot, an underscore nor a minus sign.

* `served_inside_iff`: what is opened lies in the folder, but for a script that is called like a
  directory.
-/
import ProjectTank.ClientThread
import ProjectTank.StaticFiles

open ProgramText SeparatedText ClientThread DirectoryWalk StaticFiles

namespace ServedFile

/-! ## The name -/

def isFileChar (c : Char) : Bool := c.isAlpha || c.isDigit || c = '.' || c = '_' || c = '-'

/-- `req.parameter` of a file or a script. -/
def fileParameter (buffer : Text) : Text :=
  match strstr buffer "GET /".toList with
  | none => []
  | some pb => ((pb.drop 5).takeWhile isFileChar).take 100

/-- `strncat(buffer, www_folder, ...)` and `strncat(buffer, parameter, ...)`. -/
def concatenate (wwwFolder parameter : Text) : Text :=
  (wwwFolder.take (BUFFER_SIZE - 1) ++ parameter).take (BUFFER_SIZE - 1)

/-! ## `send_file` -/

/-- `mimetypes`. -/
def mimetypes : List (Text × Text) :=
  [(".html".toList, "text/html".toList), (".htm".toList, "text/html".toList),
    (".css".toList, "text/css".toList), (".js".toList, "text/javascript".toList),
    (".txt".toList, "text/plain".toList), (".jpg".toList, "image/jpeg".toList),
    (".jpeg".toList, "image/jpeg".toList), (".png".toList, "image/png".toList),
    (".gif".toList, "image/gif".toList), (".ico".toList, "image/x-icon".toList),
    (".swf".toList, "application/x-shockwave-flash".toList),
    (".cab".toList, "application/x-shockwave-flash".toList),
    (".jar".toList, "application/java-archive".toList), (".json".toList, "application/json".toList)]

/-- The place of the last dot, and `0` without one. -/
def lastDot (s : Text) : ℕ := s.zipIdx.foldl (fun last p => if p.1 = '.' then p.2 else last) 0

/-- `send_error`, or the file that is opened and its type. -/
inductive FileAnswer
  | error (which : ℕ) (message : Text)
  | opens (path mimetype : Text)
  deriving DecidableEq

/-- The parameter, or what stands for an empty one. -/
def nameOf (parameter : Text) : Text := if parameter = [] then "index.html".toList else parameter

def sendFile (wwwFolder parameter : Text) : FileAnswer :=
  let parameter := nameOf parameter
  if lastDot parameter = 0 then .error 400 "No file extension found".toList
  else
    match mimetypes.find? fun m => m.1 = parameter.drop (lastDot parameter) with
    | none => .error 404 "MIME-TYPE not known".toList
    | some m => .opens (concatenate wwwFolder parameter) m.2

/-- What is opened for a request, in the branches of a file and of a script. -/
def openedPath (wwwFolder buffer : Text) : Option Text :=
  match kind buffer with
  | .file =>
      match sendFile wwwFolder (fileParameter buffer) with
      | .opens path _ => some path
      | .error _ _ => none
  | .cgi => some (concatenate wwwFolder (fileParameter buffer))
  | _ => none

/-! ## Names without a slash -/

/-- The server cuts the name at the first character it does not know, so at any slash. -/
theorem slash_not_mem_fileParameter (buffer : Text) : '/' ∉ fileParameter buffer := by
  unfold fileParameter
  split
  · exact List.not_mem_nil
  · intro hmem
    have hall := List.all_eq_true.mp List.all_takeWhile _ (List.mem_of_mem_take hmem)
    exact absurd hall (by decide)

/-- It cuts it at 100 characters, too. -/
theorem length_fileParameter_le (buffer : Text) : (fileParameter buffer).length ≤ 100 := by
  unfold fileParameter
  split
  · exact Nat.zero_le _
  · exact List.length_take_le _ _

/-- The folder as the server keeps it: with a slash at its end, and room for a name. -/
structure IsFolder (wwwFolder : Text) : Prop where
  slash : ∃ folder, wwwFolder = folder ++ ['/']
  fits : wwwFolder.length + 100 ≤ BUFFER_SIZE - 1

/-- With a name of that length nothing of the path is cut off. -/
theorem IsFolder.concatenate {wwwFolder parameter : Text} (h : IsFolder wwwFolder)
    (hlength : parameter.length ≤ 100) : concatenate wwwFolder parameter = wwwFolder ++ parameter := by
  have hfits := h.fits
  have hfolder : wwwFolder.take (BUFFER_SIZE - 1) = wwwFolder := List.take_of_length_le (by omega)
  rw [ServedFile.concatenate, hfolder]
  apply List.take_of_length_le
  rw [List.length_append]
  omega

/-- **Where a name in the folder leads.** -/
theorem IsFolder.resolveName_append {wwwFolder parameter : Text} (h : IsFolder wwwFolder)
    (hslash : '/' ∉ parameter) (cwd : List Text) :
    resolveName cwd (wwwFolder ++ parameter) =
      resolve (resolveName cwd wwwFolder) ((segmentStep parameter).toList) := by
  obtain ⟨folder, rfl⟩ := h.slash
  have hnil : segmentStep [] = none := if_pos (Or.inl rfl)
  have hfolder : steps (folder ++ ['/']) = (folder.splitOn '/').filterMap segmentStep := by
    rw [steps, splitOn_append_cons folder List.not_mem_nil, List.filterMap_append,
      List.filterMap_cons_none hnil, List.filterMap_nil, List.append_nil]
  have hsteps : steps (folder ++ '/' :: parameter) =
      steps (folder ++ ['/']) ++ (segmentStep parameter).toList := by
    rw [hfolder, steps, splitOn_append_cons folder hslash, List.filterMap_append]
    cases hstep : segmentStep parameter with
    | none => rw [List.filterMap_cons_none hstep, List.filterMap_nil]; rfl
    | some s => rw [List.filterMap_cons_some hstep, List.filterMap_nil]; rfl
  have habsolute : isAbsolute (folder ++ '/' :: parameter) = isAbsolute (folder ++ ['/']) := by
    cases folder <;> rfl
  rw [List.append_assoc, List.singleton_append, resolveName, resolveName, hsteps, habsolute, resolve,
    List.foldl_append]
  rfl

/-- What is not the name of an entry. -/
def isDots (parameter : Text) : Bool :=
  parameter = [] || parameter = ".".toList || parameter = "..".toList

theorem segmentStep_of_not_isDots {parameter : Text} (h : isDots parameter = false) :
    segmentStep parameter = some (.down parameter) := by
  simp only [isDots, Bool.or_eq_false_iff, decide_eq_false_iff_not] at h
  obtain ⟨⟨hnil, hdot⟩, hdots⟩ := h
  rw [segmentStep, if_neg (not_or.mpr ⟨hnil, hdot⟩), if_neg hdots]

/-- A name leads into the folder unless it is made of dots. -/
theorem IsFolder.inside_iff {wwwFolder parameter : Text} (h : IsFolder wwwFolder)
    (hslash : '/' ∉ parameter) (cwd : List Text) :
    Inside (resolveName cwd wwwFolder) (resolveName cwd (wwwFolder ++ parameter)) ↔
      isDots parameter = false := by
  rw [h.resolveName_append hslash]
  cases hdots : isDots parameter with
  | false =>
      rw [segmentStep_of_not_isDots hdots]
      refine iff_of_true (inside_iff_exists.mpr ⟨parameter, [], rfl⟩) rfl
  | true =>
      refine iff_of_false (fun hinside => ?_) (by decide)
      obtain ⟨name, rest, hrest⟩ := inside_iff_exists.mp hinside
      have hlength := congrArg List.length hrest
      rw [List.length_append, List.length_cons] at hlength
      simp only [isDots, Bool.or_eq_true, decide_eq_true_eq] at hdots
      have hshort : (resolve (resolveName cwd wwwFolder) (segmentStep parameter).toList).length ≤
          (resolveName cwd wwwFolder).length := by
        rcases hdots with (rfl | rfl) | rfl
        · exact le_rfl
        · exact le_rfl
        · show (List.dropLast _).length ≤ _
          rw [List.length_dropLast]
          omega
      omega

/-! ## What is opened -/

/-- There is always a name. -/
theorem nameOf_ne_nil (parameter : Text) : nameOf parameter ≠ [] := by
  unfold nameOf
  split
  · decide
  · assumption

/-- A file that is sent has a known extension, and so a name. -/
theorem name_of_opens {wwwFolder parameter path mimetype : Text}
    (h : sendFile wwwFolder parameter = .opens path mimetype) :
    path = concatenate wwwFolder (nameOf parameter) ∧ isDots (nameOf parameter) = false := by
  have hne := nameOf_ne_nil parameter
  have hnone : (mimetypes.find? fun m => m.1 = "..".toList.drop (lastDot "..".toList)) = none := by
    decide +kernel
  unfold sendFile at h
  generalize nameOf parameter = name at h hne
  dsimp only at h
  split at h
  · cases h
  · next hdot =>
    split at h
    · cases h
    · next m hfind =>
      refine ⟨(FileAnswer.opens.inj h).1.symm, Bool.eq_false_iff.mpr fun hdots => ?_⟩
      simp only [isDots, Bool.or_eq_true, decide_eq_true_eq] at hdots
      rcases hdots with (rfl | rfl) | rfl
      · exact hne rfl
      · exact hdot rfl
      · rw [hnone] at hfind
        cases hfind

/-- The name of the index page brings no slash in. -/
theorem slash_not_mem_nameOf {parameter : Text} (h : '/' ∉ parameter) : '/' ∉ nameOf parameter := by
  unfold nameOf
  split
  · decide +kernel
  · exact h

theorem length_nameOf_le {parameter : Text} (h : parameter.length ≤ 100) :
    (nameOf parameter).length ≤ 100 := by
  unfold nameOf
  split
  · decide
  · exact h

/-- **Nothing outside the folder is opened**, whatever the request line is, but for a script whose
name is empty or made of dots: that is the folder itself or its parent. -/
theorem served_inside_iff {wwwFolder buffer path : Text} (hfolder : IsFolder wwwFolder)
    (hpath : openedPath wwwFolder buffer = some path) (cwd : List Text) :
    Inside (resolveName cwd wwwFolder) (resolveName cwd path) ↔
      ¬(kind buffer = .cgi ∧ isDots (fileParameter buffer) = true) := by
  have hslash := slash_not_mem_fileParameter buffer
  have hlength := length_fileParameter_le buffer
  unfold openedPath at hpath
  cases hkind : kind buffer with
  | file =>
      rw [hkind] at hpath
      dsimp only at hpath
      cases hanswer : sendFile wwwFolder (fileParameter buffer) with
      | error which message =>
          rw [hanswer] at hpath
          cases hpath
      | opens opened mimetype =>
          rw [hanswer] at hpath
          obtain rfl := Option.some.inj hpath
          obtain ⟨rfl, hdots⟩ := name_of_opens hanswer
          rw [hfolder.concatenate (length_nameOf_le hlength),
            hfolder.inside_iff (slash_not_mem_nameOf hslash)]
          exact iff_of_true hdots fun h => by cases h.1
  | cgi =>
      rw [hkind] at hpath
      obtain rfl := Option.some.inj hpath
      rw [hfolder.concatenate hlength, hfolder.inside_iff hslash]
      constructor
      · rintro hfalse ⟨-, htrue⟩
        rw [hfalse] at htrue
        cases htrue
      · exact fun h => Bool.eq_false_of_not_eq_true fun htrue => h ⟨rfl, htrue⟩
  | snapshot => rw [hkind] at hpath; cases hpath
  | stream => rw [hkind] at hpath; cases hpath
  | take => rw [hkind] at hpath; cases hpath
  | inputJson => rw [hkind] at hpath; cases hpath
  | outputJson => rw [hkind] at hpath; cases hpath
  | programJson => rw [hkind] at hpath; cases hpath
  | gpio => rw [hkind] at hpath; cases hpath
  | command => rw [hkind] at hpath; cases hpath
  | malformed => rw [hkind] at hpath; cases hpath

/-- A page of the folder; what stands behind its name does not matter. -/
theorem served_inside_page :
    Inside ["srv".toList, "www".toList]
        (resolveName [] (("/srv/www/".toList) ++ "stream.html".toList)) ∧
      openedPath "/srv/www/".toList "GET /stream.html?/../../etc/passwd HTTP/1.1".toList =
        some ("/srv/www/".toList ++ "stream.html".toList) := by
  have hfolder : IsFolder "/srv/www/".toList := ⟨⟨"/srv/www".toList, by decide⟩, by decide⟩
  have hopened : openedPath "/srv/www/".toList
      "GET /stream.html?/../../etc/passwd HTTP/1.1".toList =
        some ("/srv/www/".toList ++ "stream.html".toList) := by decide +kernel
  have hkind : kind "GET /stream.html?/../../etc/passwd HTTP/1.1".toList = .file := by decide +kernel
  have hwhere : resolveName [] "/srv/www/".toList = ["srv".toList, "www".toList] := by
    decide +kernel
  refine ⟨?_, hopened⟩
  rw [← hwhere, served_inside_iff hfolder hopened, hkind]
  decide

end ServedFile
