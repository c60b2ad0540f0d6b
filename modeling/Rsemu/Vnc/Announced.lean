import Rsemu.Vnc.Frame

/-!
# Rectangles stay inside the framebuffer the client was told of

`Inside` reads a stream of rectangles as the client does: a DesktopSize rectangle gives
its framebuffer a new geometry, and every rectangle must lie in the one it has. A whole
frame always does. The bands of an incremental update are those of the surface, whatever
the client was told, so for a client that keeps an old geometry they lie inside exactly
where no row changed below it (`inside_iff`).
-/

namespace Rsemu.Vnc

/-- The calls on an encoder. -/
inductive Op where
  | update (surface : Surface) (incremental : Bool)
  | setFormat (format : PixelFormat)
  | setEncodings (list : List Int32)
  | invalidate

def sent : Option Update → List Rect
  | none => []
  | some update => update.rects

namespace FrameEncoder

def step (e : FrameEncoder) : Op → FrameEncoder × Option Update
  | .update surface incremental => e.update surface incremental
  | .setFormat format => (e.setFormat format, none)
  | .setEncodings list => (e.setEncodings list, none)
  | .invalidate => (e.invalidate, none)

def after (e : FrameEncoder) (ops : List Op) : FrameEncoder :=
  ops.foldl (fun e op => (e.step op).1) e

def stream (e : FrameEncoder) : List Op → List Rect
  | [] => []
  | op :: ops => sent (e.step op).2 ++ stream (e.step op).1 ops

end FrameEncoder

def Rect.announces (told : Nat × Nat) (r : Rect) : Nat × Nat :=
  if r.encoding = Encoding.DESKTOP_SIZE then (r.width, r.height) else told

def toldAfter (told : Nat × Nat) (rects : List Rect) : Nat × Nat :=
  rects.foldl Rect.announces told

/-- **Every rectangle lies in the framebuffer the client was told of.** -/
def Inside (told : Nat × Nat) : List Rect → Prop
  | [] => True
  | r :: rects =>
    r.x + r.width ≤ (r.announces told).1 ∧ r.y + r.height ≤ (r.announces told).2 ∧
      Inside (r.announces told) rects

instance (told : Nat × Nat) (rects : List Rect) : Decidable (Inside told rects) := by
  induction rects generalizing told with
  | nil => exact inferInstanceAs (Decidable True)
  | cons r rects ih =>
    have := ih (r.announces told)
    exact inferInstanceAs (Decidable (_ ∧ _ ∧ _))

def Op.asks (before : Bool) : Op → Bool
  | .setEncodings list => list.contains Encoding.DESKTOP_SIZE
  | _ => before

def asked (ops : List Op) : Bool :=
  ops.foldl Op.asks false

theorem inside_append {told : Nat × Nat} {first second : List Rect} :
    Inside told (first ++ second) ↔ Inside told first ∧ Inside (toldAfter told first) second := by
  induction first generalizing told with
  | nil => simp [Inside, toldAfter]
  | cons r first ih =>
    rw [List.cons_append, Inside, Inside, ih]
    simp only [toldAfter, List.foldl_cons, and_assoc]

namespace FrameEncoder

variable {e : FrameEncoder} {surface : Surface} {incremental : Bool}

/-- The rows a client was sent bands of lie in its framebuffer. The last case is that of
a height as large as the protocol can tell, where a run longer than that is cut to it. -/
def BandsFit (e : FrameEncoder) (surface : Surface) : Prop :=
  ∀ y, y < surface.height → e.changed surface y = true →
    y < e.announced.2 ∨ (e.announced.2 = 65535 ∧ ∀ z, z < y → e.changed surface z = true)

theorem fits_of_le {value : Nat} (h : value ≤ 65535) : fits value = value :=
  if_neg (by omega)

theorem fits_le (value : Nat) : fits value ≤ 65535 := by
  unfold fits
  split <;> omega

theorem bands_fit_iff (h : e.announced.2 ≤ 65535) :
    (∀ band ∈ e.damagedBands surface, fits band.1 + fits (band.2 - band.1) ≤ e.announced.2)
      ↔ e.BandsFit surface := by
  constructor
  · intro hall y hy hchanged
    obtain ⟨band, hband, hle, hlt⟩ := Runs.exists_run hy hchanged
    have hrun := Runs.isRun_of_mem hband
    have hin := hall band hband
    by_cases hyin : y < e.announced.2
    · exact Or.inl hyin
    · -- only a run cut down to the largest height there is fits and is longer
      have hz : band.1 = 0 ∧ e.announced.2 = 65535 := by
        unfold fits at hin
        split at hin <;> split at hin <;> omega
      exact Or.inr ⟨hz.2, fun z hlt' => hrun.holds z (by omega) (by omega)⟩
  · intro hfit band hband
    have hrun := Runs.isRun_of_mem hband
    have hlt := hrun.lt
    have hle := hrun.le
    rcases hfit (band.2 - 1) (by omega) (hrun.holds _ (by omega) (by omega)) with hy | ⟨h65, hz⟩
    · rw [fits_of_le (by omega), fits_of_le (by omega)]
      omega
    · have hfirst : band.1 = 0 := by
        by_contra hne
        have hno := hrun.first (band.1 - 1) (by omega)
        rw [hz (band.1 - 1) (by omega)] at hno
        cases hno
      have := fits_le (band.2 - band.1)
      rw [hfirst, fits_of_le (by decide), h65]
      rw [hfirst] at this
      omega

theorem rawRect_announces (told : Nat × Nat) (x y width height : Nat) :
    (e.rawRect surface x y width height).announces told = told :=
  if_neg (show Encoding.RAW ≠ Encoding.DESKTOP_SIZE by decide)

theorem inside_bandRects_iff (h : e.announced.2 ≤ 65535) :
    Inside e.announced (e.bandRects surface) ↔ e.BandsFit surface := by
  rw [← bands_fit_iff h, bandRects]
  induction e.damagedBands surface with
  | nil => simp [Inside]
  | cons band bands ih =>
    rw [List.map_cons, Inside, bandRect, rawRect_announces, ih, List.forall_mem_cons]
    have hwidth : (e.bandRect surface band).x + (e.bandRect surface band).width
        ≤ e.announced.1 := Nat.le_of_eq (Nat.zero_add _)
    exact ⟨fun hr => hr.2, fun hr => ⟨hwidth, hr⟩⟩

theorem toldAfter_bandRects (told : Nat × Nat) : toldAfter told (e.bandRects surface) = told := by
  rw [bandRects]
  induction e.damagedBands surface with
  | nil => rfl
  | cons band bands ih =>
    exact ih

theorem announce_kept (h : e.resized surface = false) : e.announce surface = e := by
  rw [announce, h]
  rfl

theorem announce_resized (h : e.resized surface = true) :
    (e.announce surface).announced = (fits surface.width, fits surface.height) := by
  rw [announce, h]
  rfl

theorem wholeRects_kept (h : e.resized surface = false) :
    e.wholeRects surface = [e.rawRect surface 0 0 e.announced.1 e.announced.2] := by
  rw [wholeRects, h, announce_kept h]
  rfl

theorem wholeRects_resized (h : e.resized surface = true) :
    e.wholeRects surface
      = [desktopSize (fits surface.width) (fits surface.height),
          (e.announce surface).rawRect surface 0 0 (fits surface.width) (fits surface.height)] := by
  rw [wholeRects, h, announce_resized h]
  rfl

theorem toldAfter_wholeRects :
    toldAfter e.announced (e.wholeRects surface) = (e.announce surface).announced := by
  cases h : e.resized surface with
  | false =>
    rw [wholeRects_kept h, announce_kept h, toldAfter, List.foldl_cons, rawRect_announces]
    rfl
  | true =>
    rw [wholeRects_resized h, announce_resized h]
    rfl

theorem inside_wholeRects : Inside e.announced (e.wholeRects surface) := by
  cases h : e.resized surface with
  | false =>
    rw [wholeRects_kept h]
    refine ⟨?_, ?_, trivial⟩
    all_goals
      exact Nat.le_of_eq (Nat.zero_add _)
  | true =>
    rw [wholeRects_resized h]
    refine ⟨?_, ?_, ?_, ?_, trivial⟩
    all_goals exact Nat.le_of_eq (Nat.zero_add _)

/-- What an update does, by what it sends. -/
inductive Updates (e : FrameEncoder) (surface : Surface) (incremental : Bool) :
    FrameEncoder × Option Update → Prop where
  /-- Nothing changed that the client has not been sent. -/
  | nothing (hc : e.comparable surface incremental = true) (hr : e.resized surface = false)
      (hb : e.bandRects surface = []) : Updates e surface incremental (e, none)
  /-- The rows that changed. -/
  | bands (hc : e.comparable surface incremental = true) (hr : e.resized surface = false)
      (hb : e.bandRects surface ≠ []) :
      Updates e surface incremental
        (e.remember surface, some (updateOf (e.bandRects surface)))
  /-- The whole frame. -/
  | whole (hw : e.comparable surface incremental = true → e.resized surface = true) :
      Updates e surface incremental
        ((e.announce surface).remember surface, some (updateOf (e.wholeRects surface)))

theorem updates (e : FrameEncoder) (surface : Surface) (incremental : Bool) :
    Updates e surface incremental (e.update surface incremental) := by
  unfold update
  by_cases h : (e.comparable surface incremental && !e.resized surface) = true
  · have hsplit := Bool.and_eq_true_iff.mp h
    have hr : e.resized surface = false := by simpa using hsplit.2
    rw [if_pos h]
    by_cases hb : e.bandRects surface = []
    · rw [if_pos hb]
      exact .nothing hsplit.1 hr hb
    · rw [if_neg hb]
      exact .bands hsplit.1 hr hb
  · rw [if_neg h]
    exact .whole fun hc => by simpa [hc] using h

end FrameEncoder

/-- What an operation must keep to: where it sends bands, they fit. -/
def Op.Fits (e : FrameEncoder) : Op → Prop
  | .update surface incremental =>
    e.comparable surface incremental = true → e.resized surface = false → e.BandsFit surface
  | _ => True

/-- Every operation of a run keeps to it. -/
def RunFits (e : FrameEncoder) : List Op → Prop
  | [] => True
  | op :: ops => op.Fits e ∧ RunFits (e.step op).1 ops

namespace FrameEncoder

variable {e : FrameEncoder}

theorem step_inside (op : Op) (h : e.announced.2 ≤ 65535) :
    (Inside e.announced (sent (e.step op).2) ↔ op.Fits e) ∧
      toldAfter e.announced (sent (e.step op).2) = (e.step op).1.announced ∧
      (e.step op).1.announced.2 ≤ 65535 := by
  cases op with
  | update surface incremental =>
    have hu := e.updates surface incremental
    rw [Op.Fits, step]
    obtain ⟨r, hupdate⟩ : ∃ r, e.update surface incremental = r := ⟨_, rfl⟩
    rw [hupdate] at hu ⊢
    cases hu with
    | nothing hc hr hb =>
      have hin : Inside e.announced (e.bandRects surface) ↔ e.BandsFit surface :=
        inside_bandRects_iff h
      rw [hb] at hin
      exact ⟨⟨fun hi _ _ => hin.mp hi, fun _ => trivial⟩, rfl, h⟩
    | bands hc hr hb =>
      have hin : Inside e.announced (e.bandRects surface) ↔ e.BandsFit surface :=
        inside_bandRects_iff h
      exact ⟨⟨fun hi _ _ => hin.mp hi, fun hf => hin.mpr (hf hc hr)⟩,
        toldAfter_bandRects _, h⟩
    | whole hw =>
      refine ⟨⟨fun _ hc hr => ?_, fun _ => inside_wholeRects⟩, toldAfter_wholeRects, ?_⟩
      · rw [hw hc] at hr
        cases hr
      · change (e.announce surface).announced.2 ≤ 65535
        cases hr : e.resized surface with
        | false =>
          rw [announce_kept hr]
          exact h
        | true =>
          rw [announce_resized hr]
          exact fits_le _
  | setFormat format => exact ⟨⟨fun _ => trivial, fun _ => trivial⟩, rfl, h⟩
  | setEncodings list => exact ⟨⟨fun _ => trivial, fun _ => trivial⟩, rfl, h⟩
  | invalidate => exact ⟨⟨fun _ => trivial, fun _ => trivial⟩, rfl, h⟩

theorem inside_iff (ops : List Op) (h : e.announced.2 ≤ 65535) :
    Inside e.announced (e.stream ops) ↔ RunFits e ops := by
  induction ops generalizing e with
  | nil => exact ⟨fun _ => trivial, fun _ => trivial⟩
  | cons op ops ih =>
    obtain ⟨hin, htold, hle⟩ := step_inside op h
    rw [stream, inside_append, hin, htold, ih hle, RunFits]

theorem resizable_step (op : Op) : (e.step op).1.resizable = op.asks e.resizable := by
  cases op with
  | update surface incremental =>
    have hu := e.updates surface incremental
    simp only [Op.asks, step]
    obtain ⟨r, hr⟩ : ∃ r, e.update surface incremental = r := ⟨_, rfl⟩
    rw [hr] at hu ⊢
    cases hu with
    | nothing hc hr hb => rfl
    | bands hc hr hb => rfl
    | whole hw =>
      unfold announce
      split <;> rfl
  | setFormat format => rfl
  | setEncodings list => rfl
  | invalidate => rfl

theorem resizable_after (ops : List Op) :
    (e.after ops).resizable = ops.foldl Op.asks e.resizable := by
  induction ops generalizing e with
  | nil => rfl
  | cons op ops ih =>
    rw [List.foldl_cons, ← resizable_step op]
    exact ih

theorem resizable_of_sent {op : Op} {r : Rect} (hr : r ∈ sent (e.step op).2)
    (henc : r.encoding = Encoding.DESKTOP_SIZE) : e.resizable = true := by
  have hraw : ∀ surface x y width height,
      (e.rawRect surface x y width height).encoding ≠ Encoding.DESKTOP_SIZE := by
    intro surface x y width height
    exact show Encoding.RAW ≠ Encoding.DESKTOP_SIZE by decide
  cases op with
  | update surface incremental =>
    have hu := e.updates surface incremental
    rw [step] at hr
    obtain ⟨u, hupdate⟩ : ∃ u, e.update surface incremental = u := ⟨_, rfl⟩
    rw [hupdate] at hu hr
    cases hu with
    | nothing hc hn hb => cases hr
    | bands hc hn hb =>
      obtain ⟨band, -, rfl⟩ := List.mem_map.mp hr
      exact absurd henc (hraw _ _ _ _ _)
    | whole hw =>
      cases hres : e.resized surface with
      | true =>
        unfold resized at hres
        simp only [Bool.and_eq_true] at hres
        exact hres.1.1.1
      | false =>
        have hmem : r ∈ e.wholeRects surface := hr
        rw [wholeRects_kept hres] at hmem
        rw [List.mem_singleton.mp hmem] at henc
        exact absurd henc (hraw _ _ _ _ _)
  | setFormat format => cases hr
  | setEncodings list => cases hr
  | invalidate => cases hr

end FrameEncoder

open FrameEncoder in
/-- **The rectangles of a run lie in the framebuffer the client was told of exactly where
its bands fit it**, and a new geometry is told only to a client that asked. -/
theorem rectangles_inside_iff (format : PixelFormat) (width height : UInt16) (ops : List Op) :
    (Inside (width.toNat, height.toNat) ((FrameEncoder.new format width height).stream ops)
        ↔ RunFits (FrameEncoder.new format width height) ops) ∧
      ∀ front op back r, ops = front ++ op :: back →
        r ∈ sent (((FrameEncoder.new format width height).after front).step op).2 →
        r.encoding = Encoding.DESKTOP_SIZE → asked front = true := by
  have hheight : height.toNat ≤ 65535 := Nat.le_of_lt_succ height.toNat_lt
  have hin := inside_iff (e := FrameEncoder.new format width height) ops hheight
  refine ⟨hin, fun front op back r _ hr henc => ?_⟩
  have hasked := resizable_of_sent hr henc
  rwa [resizable_after] at hasked

/-- A surface of one colour but for a last row. -/
def flag (height : Nat) (last : UInt8) : Surface where
  format := SurfaceFormat.BGRA8888
  width := 8
  height := height + 1
  pixels := List.replicate (32 * height) 0 ++ List.replicate 32 last
  length_pixels := by
    rw [List.length_append, List.length_replicate, List.length_replicate]
    change 32 * height + 32 = 32 * (height + 1)
    omega

/-- **A client told of four by two pixels is sent row three**, once the surface has four
rows and the last of them changes. -/
theorem flag_outside :
    ¬ Inside (4, 2) ((FrameEncoder.new PixelFormat.DEFAULT 4 2).stream
      [.update (flag 3 0) false, .update (flag 3 1) true]) := by
  decide +kernel

end Rsemu.Vnc
