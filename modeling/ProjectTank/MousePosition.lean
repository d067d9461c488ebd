/-
# The mouse position that the page reports (`main/index.html`, `main/web.py`)

The listener subtracts half the width of the video and prints the difference as JavaScript
prints numbers; the handler reads it with `int`.  The two agree on integers that are printed
as themselves and on nothing else, so the window layout decides whether the servos follow.

* `accepted_iff`: when the handler accepts a position as it was meant;
* `position_refused`: a video of odd width.
-/
import ProjectTank.JavaScriptNumber
import ProjectTank.ServoOverflow

open ProgramText DecimalText SeparatedText JavaScript
open TankServer (Response)
open TurretServer (query valueOf)
open ServoOverflow (Setting isSetMousePos setMousePos coordinate coordinates)

namespace MousePosition

/-! ## The page -/

/-- The pointer, and the rectangle of the video. -/
structure Pointer where
  clientX : ℚ
  clientY : ℚ
  left : ℚ
  top : ℚ
  width : ℚ
  height : ℚ

/-- `centerX`. -/
def centerX (p : Pointer) : Number :=
  let x := (Number.ofRat p.clientX).sub (.ofRat p.left)
  x.sub (Number.ofRat p.width).half

/-- `centerY`. -/
def centerY (p : Pointer) : Number :=
  let y := (Number.ofRat p.clientY).sub (.ofRat p.top)
  (Number.ofRat p.height).half.sub y

/-- The path that `throttledSendPos` fetches. -/
def setMousePosUrl (x y : Number) : Text :=
  "/set_mouse_pos?x=".toList ++ toText x ++ ("&y=".toList ++ toText y)

/-- What the handler does with the position. -/
def report (setting : Setting) (p : Pointer) : Option (Option (ℤ × ℤ) × Response) :=
  let path := setMousePosUrl (centerX p) (centerY p)
  if isSetMousePos path then some (setMousePos setting path) else none

/-- A number rounded to an integer, as `toFixed(0)` does for the display. -/
def rounded : Number → Option ℤ
  | .finite x _ => some (if x < 0 then -⌊-x + 1 / 2⌋ else ⌊x + 1 / 2⌋)
  | _ => none

/-- The handler answers `200` and passes on the two values, rounded to integers. -/
def Accepted (setting : Setting) (p : Pointer) : Prop :=
  ∃ x y, rounded (centerX p) = some x ∧ rounded (centerY p) = some y ∧
    report setting p = some (some (x, y), .headers 200)

/-! ## What the handler reads -/

theorem isNumberChar_ascii {c : Char} (h : IsNumberChar c) : isAscii c = true := by
  rcases h with h | h
  · exact Python.isAscii_of_isDigit h
  · exact List.all_eq_true.mp (by decide : ("+-.eNaInfity".toList.all isAscii) = true) c h

theorem not_mem_toText {c : Char} (h : ¬ IsNumberChar c) (v : Number) : c ∉ toText v :=
  fun hc => h (mem_toText v c hc)

/-- The server finds the query that the page has built. -/
theorem query_setMousePosUrl (x y : Number) :
    query (setMousePosUrl x y) = "x=".toList ++ toText x ++ ("&y=".toList ++ toText y) := by
  have hx := not_mem_toText (c := '?') (by decide) x
  have hy := not_mem_toText (c := '?') (by decide) y
  have hpath : setMousePosUrl x y = "/set_mouse_pos".toList ++
      '?' :: ("x=".toList ++ toText x ++ ("&y=".toList ++ toText y)) := rfl
  rw [query, hpath, List.splitOn_append_cons_self_of_not_mem (by decide),
    List.splitOn_eq_singleton (by simp [hx, hy])]
  rfl

theorem queryParts_setMousePosUrl (x y : Number) :
    (query (setMousePosUrl x y)).splitOn '&' =
      ["x=".toList ++ toText x, "y=".toList ++ toText y] := by
  have hx := not_mem_toText (c := '&') (by decide) x
  have hy := not_mem_toText (c := '&') (by decide) y
  rw [query_setMousePosUrl, show "&y=".toList ++ toText y = '&' :: ("y=".toList ++ toText y) from rfl,
    List.splitOn_append_cons_self_of_not_mem (by simp [hx]),
    List.splitOn_eq_singleton (by simp [hy])]

/-- It finds the printed number behind its name. -/
theorem valueOf_named {name : Text} (hname : '=' ∉ name) (v : Number) :
    valueOf (name ++ '=' :: toText v) = some (toText v) := by
  rw [valueOf, List.splitOn_append_cons_self_of_not_mem hname,
    List.splitOn_eq_singleton (not_mem_toText (by decide) v)]
  rfl

/-- The reports come to the branch for them: no text of a number has an `m` in it. -/
theorem isSetMousePos_url (x y : Number) : isSetMousePos (setMousePosUrl x y) = true := by
  rw [isSetMousePos, Bool.and_eq_true, Bool.not_eq_true', Bool.eq_false_iff]
  refine ⟨fun hmp3 => ?_, rfl⟩
  have hsuffix : "&y=".toList ++ toText y <:+ setMousePosUrl x y := List.suffix_append _ _
  have hlen : ".mp3".toList.length ≤ ("&y=".toList ++ toText y).length := by
    have := List.length_pos_iff.mpr (toText_ne_nil y)
    simp
    omega
  have hm : 'm' ∈ "&y=".toList ++ toText y :=
    (List.suffix_of_suffix_length_le (List.isSuffixOf_iff_suffix.mp hmp3) hsuffix hlen).subset
      (by decide)
  rcases List.mem_append.mp hm with h | h
  · exact absurd h (by decide)
  · exact not_mem_toText (by decide) y h

theorem rounded_of_is {v : Number} {n : ℤ} (h : v.Is n) : rounded v = some n := by
  cases v with
  | finite x hx =>
      obtain rfl : x = n := h
      have hfloor : ∀ m : ℤ, ⌊(m : ℚ) + 1 / 2⌋ = m := by
        intro m
        rw [Int.floor_intCast_add, show ⌊(1 / 2 : ℚ)⌋ = 0 by norm_num, add_zero]
      have hneg := hfloor (-n)
      push_cast at hneg
      rw [rounded, hneg, hfloor, neg_neg, ite_self]
  | infinity negative => exact h.elim
  | nan => exact h.elim

/-- A number stands for one integer at most. -/
theorem is_unique {v : Number} {m n : ℤ} (hm : v.Is m) (hn : v.Is n) : m = n :=
  Option.some.inj ((rounded_of_is hm).symm.trans (rounded_of_is hn))

/-- What the handler reads of one coordinate is what was meant, exactly when the number prints
itself. -/
theorem int_toText_iff (u : UnicodeTables) (v : Number) (n : ℤ) :
    Python.int u (toText v) = some n ∧ rounded v = some n ↔ PrintsItself v n := by
  have hascii : (toText v).all isAscii = true :=
    List.all_eq_true.mpr fun c hc => isNumberChar_ascii (mem_toText v c hc)
  rcases toText_cases v with ⟨w, n', htext, hw, hn', hiff⟩ | ⟨hnot, c, hc, hmark⟩
  · have hint : Python.int u (toText v) = some w := by
      rw [htext]
      refine Python.int_intText u ((length_natText_le (k := 21) (by norm_num) ?_).trans (by decide))
      rw [Int.abs_eq_natAbs] at hw
      exact_mod_cast hw
    rw [hint, rounded_of_is hn', Option.some.injEq, Option.some.injEq]
    constructor
    · rintro ⟨rfl, rfl⟩
      exact hiff.mp rfl
    · intro h
      obtain rfl := is_unique hn' h.1
      exact ⟨hiff.mpr h, rfl⟩
  -- `int` refuses the point, the exponent and the names
  · have hnone : Python.int u (toText v) = none := by
      have hall : ∀ c ∈ ".eNI".toList, isSpace c = false ∧ c.isDigit = false ∧
          c ∉ ['_', '+', '-'] := by simp [isSpace]
      obtain ⟨hspace, hdigit, hsign⟩ := hall c hmark
      exact Python.int_eq_none_of_mem u hascii hc hspace hdigit hsign
    rw [hnone]
    exact iff_of_false (fun h => Option.some_ne_none n h.1.symm) (hnot n)

/-! ## The report -/

theorem coordinate_eq_ok_iff {setting : Setting} {name : Text} (hname : '=' ∉ name) (v : Number)
    (n : ℤ) : coordinate setting (some (name ++ '=' :: toText v)) = .ok n ↔
      Python.int setting.unicode (toText v) = some n := by
  rw [coordinate, Option.bind_some, valueOf_named hname]
  simp only
  cases Python.int setting.unicode (toText v) <;> simp

/-- The coordinates are accepted when `int` accepts both printed numbers. -/
theorem coordinates_eq_ok_iff {setting : Setting} (vx vy : Number) (x y : ℤ) :
    coordinates setting (setMousePosUrl vx vy) = .ok (x, y) ↔
      Python.int setting.unicode (toText vx) = some x ∧
        Python.int setting.unicode (toText vy) = some y := by
  rw [← @coordinate_eq_ok_iff setting ['x'] (by decide) vx,
    ← @coordinate_eq_ok_iff setting ['y'] (by decide) vy]
  simp only [coordinates, queryParts_setMousePosUrl]
  show ((coordinate setting (some (['x'] ++ '=' :: toText vx))).bind fun x =>
    (coordinate setting (some (['y'] ++ '=' :: toText vy))).bind fun y => .ok (x, y)) = _ ↔ _
  cases coordinate setting (some (['x'] ++ '=' :: toText vx)) with
  | error e => simp [Except.bind]
  | ok x' =>
      cases coordinate setting (some (['y'] ++ '=' :: toText vy)) with
      | error e => simp [Except.bind]
      | ok y' => simp [Except.bind]

/-- The handler answers `200` exactly when it could read both coordinates. -/
theorem report_eq_iff {setting : Setting} (hgpio : setting.gpioSupport = true) (p : Pointer)
    (x y : ℤ) : report setting p = some (some (x, y), .headers 200) ↔
      coordinates setting (setMousePosUrl (centerX p) (centerY p)) = .ok (x, y) := by
  simp only [report, isSetMousePos_url, if_true, setMousePos, hgpio, Bool.true_eq_false, if_false]
  cases coordinates setting (setMousePosUrl (centerX p) (centerY p)) <;> simp

/-- **When a position is accepted as it was meant**: both centred coordinates are integers that
the page prints as themselves. -/
theorem accepted_iff {setting : Setting} (hgpio : setting.gpioSupport = true) (p : Pointer) :
    Accepted setting p ↔
      (∃ x, PrintsItself (centerX p) x) ∧ ∃ y, PrintsItself (centerY p) y := by
  simp only [Accepted, report_eq_iff hgpio, coordinates_eq_ok_iff]
  constructor
  · rintro ⟨x, y, hx, hy, hintX, hintY⟩
    exact ⟨⟨x, (int_toText_iff _ _ _).mp ⟨hintX, hx⟩⟩, y, (int_toText_iff _ _ _).mp ⟨hintY, hy⟩⟩
  · rintro ⟨⟨x, hx⟩, y, hy⟩
    obtain ⟨hintX, hroundX⟩ := (int_toText_iff setting.unicode _ _).mpr hx
    obtain ⟨hintY, hroundY⟩ := (int_toText_iff setting.unicode _ _).mpr hy
    exact ⟨x, y, hroundX, hroundY, hintX, hintY⟩

/-- A position on a video of 640 by 480 pixels. -/
theorem accepted_on_even_width : Accepted .wired ⟨100, 50, 0, 0, 640, 480⟩ :=
  (@accepted_iff .wired rfl ⟨100, 50, 0, 0, 640, 480⟩).mpr
    ⟨⟨-220, printsItself_of_lt (by decide +kernel) (by decide)⟩,
      190, printsItself_of_lt (by decide +kernel) (by decide)⟩

/-- A video that is 641 pixels wide: half a pixel left of the middle, the position `-0.5` is
refused. -/
theorem position_refused :
    ¬ ∀ p, Accepted .wired p := by
  intro h
  obtain ⟨x, y, -, -, hreport⟩ := h ⟨320, 240, 0, 0, 641, 480⟩
  have hrefused : report .wired ⟨320, 240, 0, 0, 641, 480⟩ =
      some (none, .sendError 500 "Error setting mouse position: ".toList) := by decide +kernel
  rw [hrefused] at hreport
  cases hreport

end MousePosition
