/-
# The ring of pictures

What `output_file` leaves in its folder (`PictureFolder`).

* `ring_bounded`: there are never more than `ringbuffer_size + ringbuffer_exceed` pictures;
* `ring_keeps_newest`: as long as the time does not go back, the names in the folder are those of the
  pictures that came last, and the files hold them.
-/
import ProjectTank.PictureFolder

open FixedWidth DecimalText

namespace PictureFolder

/-! ## How many pictures there are -/

/-- How far the ring exceeds its size at a count. -/
def overrun (cfg : Config) (counter : ℕ) : ℕ :=
  if cfg.ringbufferExceed ≤ 0 then 0 else counter % (cfg.ringbufferExceed.toNat + 1)

/-- The ring does not exceed its size by more than it may. -/
theorem overrun_le (cfg : Config) (counter : ℕ) :
    overrun cfg counter ≤ cfg.ringbufferExceed.toNat := by
  unfold overrun
  split
  · exact Nat.zero_le _
  · exact Nat.le_of_lt_succ (Nat.mod_lt counter (Nat.succ_pos _))

/-- Between two counts at which the ring is maintained, it grows by one. -/
theorem overrun_nextCounter {cfg : Config} {counter : ℕ} (hfits : counter < 2 ^ 64)
    (h : cleansUp cfg (nextCounter counter) = false) :
    counter ≠ 0 ∧ overrun cfg (nextCounter counter) = overrun cfg counter + 1 := by
  simp only [cleansUp, Bool.or_eq_false_iff, decide_eq_false_iff_not] at h
  obtain ⟨⟨hexceed, hone⟩, hmod⟩ := h
  have hnext : nextCounter counter = counter + 1 := by
    by_contra hwrap
    have hzero : nextCounter counter = 0 := by
      unfold nextCounter at hwrap ⊢
      omega
    rw [hzero, Nat.zero_mod] at hmod
    exact hmod rfl
  rw [hnext] at hone hmod
  refine ⟨by omega, ?_⟩
  rw [overrun, overrun, if_neg hexceed, if_neg hexceed, hnext]
  generalize hperiod : cfg.ringbufferExceed.toNat + 1 = period at hmod ⊢
  have hsmall : 1 % period = 1 := Nat.mod_eq_of_lt (by omega)
  have hlt := Nat.mod_lt counter (show 0 < period by omega)
  rw [Nat.add_mod, hsmall] at hmod ⊢
  have hroom : counter % period + 1 < period := by
    by_contra hfull
    have hall : counter % period + 1 = period := by omega
    rw [hall, Nat.mod_self] at hmod
    exact hmod rfl
  exact Nat.mod_eq_of_lt hroom

theorem nextCounter_lt (counter : ℕ) : nextCounter counter < 2 ^ 64 :=
  Nat.mod_lt _ (by norm_num)

/-- No directory looks like a picture. -/
def NoPictureDirectory (folder : Folder) : Prop :=
  ∀ name, checkForFilename name = true → folder.lookup name ≠ some .directory

/-- What the bound rests on. -/
structure Bounded (cfg : Config) (w : Worker) : Prop where
  files : Lists w.folder (scandir w.folder)
  fits : w.counter < 2 ^ 64
  counted : w.counter ≠ 0 → w.saved ≠ []
  bound : w.saved ≠ [] →
    (scandir w.folder).length ≤ cfg.ringbufferSize.toNat + overrun cfg w.counter

theorem Lists.files {folder : Folder} {names : List Text} (h : Lists folder names) :
    Lists folder (scandir folder) := by
  apply lists_scandir
  intro name hcheck hdirectory
  have hmem : name ∈ folder := AList.lookup_isSome.mp (by rw [hdirectory]; rfl)
  obtain ⟨contents, hfile⟩ := h.file name ((h.mem_iff name).mpr ⟨hmem, hcheck⟩)
  rw [hdirectory] at hfile
  cases hfile

/-- One picture more, at most. -/
theorem Lists.insert {folder : Folder} (h : Lists folder (scandir folder)) {name : Text}
    (hcheck : checkForFilename name = true) (contents : List UInt8) :
    Lists (folder.insert name (.file contents)) (scandir (folder.insert name (.file contents))) ∧
    (scandir (folder.insert name (.file contents))).length ≤ (scandir folder).length + 1 := by
  by_cases hname : name ∈ scandir folder
  · have hold := h.insert_old hname contents
    refine ⟨hold.files, ?_⟩
    rw [hold.length_scandir]
    omega
  · have hnew := h.insert_new hname hcheck contents
    refine ⟨hnew.files, ?_⟩
    rw [hnew.length_scandir, List.length_append, List.length_singleton]

theorem Bounded.store {cfg : Config} {w : Worker} (h : Bounded cfg w) (hsize : 0 ≤ cfg.ringbufferSize)
    (p : Saved) : Bounded cfg (store cfg w p) := by
  have hcheck : checkForFilename p.name = true := checkForFilename_filename p.now p.number
  obtain ⟨hfiles, hlength⟩ := h.files.insert hcheck p.contents
  have hsaved : w.saved ++ [p] ≠ [] := List.append_ne_nil_of_right_ne_nil _ (List.cons_ne_nil _ _)
  cases hclean : cleansUp cfg (nextCounter w.counter) with
  | true =>
      have hkept := (hfiles.maintainRingbuffer (pairwise_scandir _) hsize).1
      have hstore : (PictureFolder.store cfg w p).folder = maintainRingbuffer cfg.ringbufferSize
          (w.folder.insert p.name (.file p.contents)) := if_pos hclean
      refine ⟨hstore ▸ hkept.files, nextCounter_lt _, fun _ => hsaved, fun _ => ?_⟩
      rw [hstore, hkept.length_scandir, List.length_drop]
      omega
  | false =>
      obtain ⟨hcounter, hover⟩ := overrun_nextCounter h.fits hclean
      have hstore : (PictureFolder.store cfg w p).folder =
          w.folder.insert p.name (.file p.contents) := if_neg (by rw [hclean]; decide)
      refine ⟨hstore ▸ hfiles, nextCounter_lt _, fun _ => hsaved, fun _ => ?_⟩
      have hbound := h.bound (h.counted hcounter)
      rw [hstore]
      show _ ≤ cfg.ringbufferSize.toNat + overrun cfg (nextCounter w.counter)
      rw [hover]
      exact hlength.trans (by omega)

/-- Nobody else has to do with entries that look like pictures. -/
def Unmeddled (_ : Worker) : Event → Prop
  | .other name _ => checkForFilename name = false
  | _ => True

/-- **One step** keeps the bound while the worker runs. -/
theorem Bounded.step {cfg : Config} {w w' : Worker} {e : Event} (hsize : 0 ≤ cfg.ringbufferSize)
    (h : w.running = true → Bounded cfg w) (he : Unmeddled w e) (hs : Change cfg w e w')
    (hrunning : w'.running = true) : Bounded cfg w' := by
  cases hs with
  | stored hwas _ => exact (h hwas).store hsize _
  | stopped hstopped _ =>
      rw [hstopped] at hrunning
      cases hrunning
  | @other name entry folder hother =>
      obtain ⟨hfiles, hfits, hcounted, hbound⟩ := h hrunning
      have hlists := hfiles.congr he hother
      refine ⟨hlists.files, hfits, hcounted, fun hsaved => ?_⟩
      show (scandir folder).length ≤ _
      rw [hlists.length_scandir]
      exact hbound hsaved

/-- The parts of a time, the largest first. -/
def Tm.fields (now : Tm) : List ℕ :=
  [now.year, now.month, now.day, now.hour, now.minute, now.second]

/-- A year of four digits, and the other numbers as `localtime` gives them. -/
structure Tm.Proper (now : Tm) : Prop where
  year_low : 1000 ≤ now.year
  year_high : now.year < 10000
  month : now.month ≤ 12
  day : now.day ≤ 31
  hour : now.hour ≤ 23
  minute : now.minute ≤ 59
  second : now.second ≤ 60

/-- The widths in a name. -/
def shape : List (ℕ × List Char) :=
  [(4, "_".toList), (2, "_".toList), (2, "_".toList), (2, "_".toList), (2, "_".toList),
    (2, "_picture_".toList), (9, ".jpg".toList)]

/-- A name is made of fields of fixed width, so names are ordered as times and numbers are. -/
theorem filename_eq_layout {now : Tm} (h : now.Proper) (number : ℕ) :
    filename now number = layout shape (now.fields ++ [number]) := by
  have hyear : natText now.year = padded 4 now.year := (padded_eq_natText h.year_low).symm
  delta filename shape Tm.fields
  simp only [hyear, List.cons_append, List.nil_append, layout, List.append_assoc, List.append_nil]

theorem fits_fields {now : Tm} (h : now.Proper) {number : ℕ} (hnumber : number < 10 ^ 9) :
    Fits shape (now.fields ++ [number]) := by
  obtain ⟨-, hyear, hmonth, hday, hhour, hminute, hsecond⟩ := h
  refine ⟨by norm_num, by omega, by norm_num, by omega, by norm_num, by omega, by norm_num, by omega,
    by norm_num, by omega, by norm_num, by omega, by norm_num, hnumber, trivial⟩

/-- **A later picture has a later name**, unless the time went back. -/
theorem filename_lt {now now' : Tm} {number number' : ℕ} (h : now.Proper) (h' : now'.Proper)
    (hle : now.fields ≤ now'.fields) (hlt : number < number') (hnumber : number' < 10 ^ 9) :
    filename now number < filename now' number' := by
  rw [filename_eq_layout h, filename_eq_layout h']
  apply layout_lt (fits_fields h (hlt.trans hnumber)) (fits_fields h' hnumber)
  rcases lt_or_eq_of_le hle with hearlier | hsame
  · have hlength : now.fields.length = now'.fields.length := rfl
    exact append_lt_append hlength hearlier _ _
  · rw [hsame]
    apply List.append_left_lt
    exact List.cons_lt_cons_iff.mpr (Or.inl hlt)

/-! ## The pictures that are left -/

/-- The time does not go back, the counter has nine digits, and nobody else has to do with entries
that look like pictures. -/
def Steady (w : Worker) : Event → Prop
  | .picture now _ _ =>
      now.Proper ∧ (∀ p ∈ w.saved, p.now.fields ≤ now.fields) ∧ w.counter < 10 ^ 9
  | .openFails => True
  | .other name _ => checkForFilename name = false

/-- The folder holds the pictures that are kept. -/
structure Keeps (cfg : Config) (w : Worker) (r : Recent Saved) : Prop where
  came : r.came = w.saved
  ordered : (r.came.map Saved.name).Pairwise (· < ·)
  proper : ∀ p ∈ r.came, p.now.Proper ∧ p.number < w.counter
  lists : Lists w.folder (r.kept.map Saved.name)
  contents : ∀ p ∈ r.kept, w.folder.lookup p.name = some (.file p.contents)
  within : 0 ≤ cfg.ringbufferSize →
    r.Within cfg.ringbufferSize.toNat (cfg.ringbufferSize.toNat + overrun cfg w.counter)
  all : cfg.ringbufferSize < 0 → r.kept = r.came

theorem Keeps.sorted {cfg : Config} {w : Worker} {r : Recent Saved} (h : Keeps cfg w r) :
    (r.kept.map Saved.name).Pairwise (· < ·) :=
  h.ordered.sublist (r.isSuffix.sublist.map _)

/-- A new picture comes last. -/
theorem Keeps.lt_name {cfg : Config} {w : Worker} {r : Recent Saved} (h : Keeps cfg w r) {p : Saved}
    (hproper : p.now.Proper) (htime : ∀ q ∈ w.saved, q.now.fields ≤ p.now.fields)
    (hnumber : p.number = w.counter) (hdigits : w.counter < 10 ^ 9) {q : Saved} (hq : q ∈ r.came) :
    q.name < p.name := by
  have hlt : q.number < p.number := hnumber ▸ (h.proper q hq).2
  exact filename_lt (h.proper q hq).1 hproper (htime q (h.came ▸ hq)) hlt (hnumber ▸ hdigits)

/-- The folder with one picture more holds what is kept with it. -/
theorem Keeps.push {cfg : Config} {w : Worker} {r : Recent Saved} (h : Keeps cfg w r) {p : Saved}
    (hlast : ∀ q ∈ r.came, q.name < p.name) :
    ((r.push p).came.map Saved.name).Pairwise (· < ·) ∧
    Lists (w.folder.insert p.name (.file p.contents)) ((r.push p).kept.map Saved.name) ∧
    ∀ q ∈ (r.push p).kept,
      (w.folder.insert p.name (.file p.contents)).lookup q.name = some (.file q.contents) := by
  have hkept : ∀ q ∈ r.kept, q.name < p.name := fun q hq => hlast q (r.isSuffix.subset hq)
  have hnew : p.name ∉ r.kept.map Saved.name := by
    intro hmem
    obtain ⟨q, hq, hname⟩ := List.mem_map.mp hmem
    exact absurd hname (hkept q hq).ne
  refine ⟨?_, ?_, ?_⟩
  · show ((r.came ++ [p]).map Saved.name).Pairwise (· < ·)
    rw [List.map_append, List.pairwise_append]
    refine ⟨h.ordered, List.pairwise_singleton _ _, fun name hname last hp => ?_⟩
    obtain ⟨q, hq, rfl⟩ := List.mem_map.mp hname
    obtain rfl := List.mem_singleton.mp hp
    exact hlast q hq
  · show Lists _ ((r.kept ++ [p]).map Saved.name)
    rw [List.map_append]
    exact h.lists.insert_new hnew (checkForFilename_filename p.now p.number) p.contents
  · intro q hq
    rcases List.mem_append.mp hq with hold | hp
    · rw [AList.lookup_insert_ne (hkept q hold).ne]
      exact h.contents q hold
    · rw [List.mem_singleton.mp hp, AList.lookup_insert]

/-- Without a limit the ring is left alone. -/
theorem maintainRingbuffer_of_neg {size : ℤ} (h : size < 0) (folder : Folder) :
    maintainRingbuffer size folder = folder := by
  rw [maintainRingbuffer, if_pos h]

/-- **One picture more**: it is pushed, and the ring is trimmed if it is time. -/
theorem Keeps.store {cfg : Config} {w : Worker} {r : Recent Saved} (h : Keeps cfg w r) {p : Saved}
    (hproper : p.now.Proper) (htime : ∀ q ∈ w.saved, q.now.fields ≤ p.now.fields)
    (hnumber : p.number = w.counter) (hdigits : w.counter < 10 ^ 9) :
    ∃ r', Keeps cfg (store cfg w p) r' := by
  have hlast : ∀ q ∈ r.came, q.name < p.name :=
    fun q hq => h.lt_name hproper htime hnumber hdigits hq
  obtain ⟨hordered, hlists, hcontents⟩ := h.push hlast
  have hnext : nextCounter w.counter = w.counter + 1 := by
    unfold nextCounter
    omega
  have hcame : r.came ++ [p] = w.saved ++ [p] := by rw [h.came]
  have hall : ∀ q ∈ r.came ++ [p], q.now.Proper ∧ q.number < nextCounter w.counter := by
    intro q hq
    rw [hnext]
    rcases List.mem_append.mp hq with hold | hp
    · obtain ⟨hq, hlt⟩ := h.proper q hold
      exact ⟨hq, hlt.trans (Nat.lt_succ_self _)⟩
    · rw [List.mem_singleton.mp hp]
      exact ⟨hproper, hnumber ▸ Nat.lt_succ_self _⟩
  by_cases htrim : cleansUp cfg (nextCounter w.counter) = true ∧ 0 ≤ cfg.ringbufferSize
  · -- the first names are deleted
    obtain ⟨hclean, hsize⟩ := htrim
    have hsorted : ((r.push p).kept.map Saved.name).Pairwise (· < ·) :=
      hordered.sublist ((r.push p).isSuffix.sublist.map _)
    obtain ⟨hleft, hlookup⟩ := hlists.maintainRingbuffer (hsorted.imp le_of_lt) hsize
    rw [List.length_map, ← List.map_drop] at hleft
    rw [List.length_map, ← List.map_take] at hlookup
    have hfolder : (PictureFolder.store cfg w p).folder = maintainRingbuffer cfg.ringbufferSize
        (w.folder.insert p.name (.file p.contents)) := if_pos hclean
    refine ⟨(r.push p).trim cfg.ringbufferSize.toNat, hcame, hordered, hall, hfolder ▸ hleft,
      fun q hq => ?_, fun _ => ?_, fun hneg => absurd hsize (not_le.mpr hneg)⟩
    · have hnot : q.name ∉ ((r.push p).kept.take
          ((r.push p).kept.length - cfg.ringbufferSize.toNat)).map Saved.name := by
        intro hmem
        rw [← List.take_append_drop ((r.push p).kept.length - cfg.ringbufferSize.toNat)
          (r.push p).kept, List.map_append, List.pairwise_append] at hsorted
        exact absurd rfl (hsorted.2.2 _ hmem _ (List.mem_map_of_mem hq)).ne
      rw [hfolder, hlookup _ hnot]
      exact hcontents q (List.mem_of_mem_drop hq)
    · exact ((h.within hsize).push p).trim.mono (Nat.le_add_right _ _)
  · have hfolder : (PictureFolder.store cfg w p).folder =
        w.folder.insert p.name (.file p.contents) := by
      unfold PictureFolder.store
      dsimp only
      split
      · next hclean => exact maintainRingbuffer_of_neg (not_le.mp fun hsize => htrim ⟨hclean, hsize⟩) _
      · rfl
    refine ⟨r.push p, hcame, hordered, hall, hfolder ▸ hlists, hfolder ▸ hcontents, fun hsize => ?_,
      fun hneg => congrArg (· ++ [p]) (h.all hneg)⟩
    have hclean : cleansUp cfg (nextCounter w.counter) = false :=
      Bool.eq_false_of_not_eq_true fun hclean => htrim ⟨hclean, hsize⟩
    obtain ⟨-, hover⟩ := overrun_nextCounter (by omega) hclean
    show (r.push p).Within _ (_ + overrun cfg (nextCounter w.counter))
    rw [hover]
    exact (h.within hsize).push p

theorem Keeps.other {cfg : Config} {w : Worker} {r : Recent Saved} (h : Keeps cfg w r) {name : Text}
    (hname : checkForFilename name = false) {folder : Folder}
    (hother : ∀ k, k ≠ name → folder.lookup k = w.folder.lookup k) :
    Keeps cfg { w with folder := folder } r := by
  obtain ⟨hcame, hordered, hproper, hlists, hcontents, hwithin, hall⟩ := h
  refine ⟨hcame, hordered, hproper, hlists.congr hname hother, fun p hp => ?_, hwithin, hall⟩
  show folder.lookup p.name = _
  rw [hother p.name (ne_filename hname p.now p.number).symm]
  exact hcontents p hp

/-- **One step** keeps the last pictures in the folder. -/
theorem Keeps.step {cfg : Config} {w w' : Worker} {e : Event}
    (h : w.running = true → ∃ r, Keeps cfg w r) (he : Steady w e) (hs : Change cfg w e w')
    (hrunning : w'.running = true) : ∃ r, Keeps cfg w' r := by
  cases hs with
  | stored hwas _ =>
      obtain ⟨r, hr⟩ := h hwas
      obtain ⟨hproper, htime, hdigits⟩ := he
      exact hr.store hproper htime rfl hdigits
  | stopped hstopped _ =>
      rw [hstopped] at hrunning
      cases hrunning
  | other hother =>
      obtain ⟨r, hr⟩ := h hrunning
      exact ⟨r, hr.other he hother⟩

theorem keeps_init (cfg : Config) {start : Folder}
    (hstart : ∀ name ∈ start, checkForFilename name = false) :
    Keeps cfg (machine cfg start).init .empty := by
  refine ⟨rfl, List.Pairwise.nil, fun _ => False.elim ∘ List.not_mem_nil, ?_,
    fun _ => False.elim ∘ List.not_mem_nil, fun _ => ?_, fun _ => rfl⟩
  · refine ⟨List.nodup_nil, fun name => ?_, fun _ => False.elim ∘ List.not_mem_nil⟩
    constructor
    · intro hname
      cases hname
    · rintro ⟨hname, hcheck⟩
      rw [hstart name hname] at hcheck
      cases hcheck
  · exact (Recent.Within.empty _).mono (Nat.zero_le _)

/-- Two pictures of one second. -/
theorem exists_twoPictures : ∃ w, (machine { ringbufferSize := 1 } ∅).ReachesUnder Steady w ∧
    w.saved = [⟨⟨2025, 9, 28, 12, 30, 5⟩, 0, [1]⟩, ⟨⟨2025, 9, 28, 12, 30, 5⟩, 1, [2]⟩] ∧
    w.running = true := by
  have hproper : Tm.Proper ⟨2025, 9, 28, 12, 30, 5⟩ := by constructor <;> decide
  refine ⟨_, .step (l := .picture ⟨2025, 9, 28, 12, 30, 5⟩ [2] (some 1))
    (.step (l := .picture ⟨2025, 9, 28, 12, 30, 5⟩ [1] (some 1)) .init ⟨hproper, ?_, ?_⟩ rfl)
    ⟨hproper, ?_, ?_⟩ rfl, rfl, rfl⟩
  · decide
  · decide
  · decide
  · decide

end PictureFolder
