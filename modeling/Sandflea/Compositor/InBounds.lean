import Sandflea.Compositor.Blit

/-!
# Bounds of the compositor functions

A call is in bounds when it does not fault and each of its copies keeps to the places that it is from and
to. `inBounds_iff` says when: the blits, whose checks cannot wrap, except for a display without a pitch;
the presents and `copyBuffer` if the sums of their checks do not wrap and, for the presents, the rows are
no longer than the framebuffer has place for.
-/

namespace Sandflea

open Compositor

/-- A call of a compositor function. -/
inductive DisplayCall
  /-- `wasm_display_present` -/
  | present (offset : UInt32)
  /-- `wasm_display_present_rect` -/
  | presentRect (offset : UInt32) (x y w h : Int32)
  /-- `wasm_display_copy_buffer` -/
  | copyBuffer (dstOffset srcOffset : UInt32)
  /-- `wasm_wm_blit_surface` -/
  | blitSurface (winHandle : Int32) (a : BlitArgs)
  /-- `wasm_display_blit_from_pid` -/
  | blitFromPid (pid : Int32) (a : BlitArgs)
deriving DecidableEq, Repr

/-- What a call does in the state of the compositor, for a process and its memory. -/
def DisplayCall.run (c : DisplayCall) (s : Compositor) (proc : Option Int32) (mem : Option Guest) :
    BlitRun :=
  match c with
  | .present offset => s.wasmDisplayPresent proc mem offset
  | .presentRect offset x y w h => s.wasmDisplayPresentRect proc mem offset x y w h
  | .copyBuffer dstOffset srcOffset => s.wasmDisplayCopyBuffer mem dstOffset srcOffset
  | .blitSurface winHandle a => s.wasmWmBlitSurface proc mem winHandle a
  | .blitFromPid pid a => s.wasmDisplayBlitFromPid proc pid a

/-- A call does not fault, and its copies keep to their places. -/
def BlitRun.InBounds (r : BlitRun) : Prop := r.result ≠ none ∧ ∀ c ∈ r.copies, c.InBounds

/-- A row of a present is refused or empty, or its sum does not wrap and the framebuffer has place. -/
def RowFits (d : Display) (g : Guest) (offset srcOff dstOff rowBytes : UInt32) : Prop :=
  g.memSize < offset + srcOff + rowBytes ∨ rowBytes = 0 ∨
    offset.toNat + srcOff.toNat + rowBytes.toNat < 2 ^ 32 ∧
      dstOff.toNat + rowBytes.toNat ≤ d.pitch.toNat * d.height.toNat

/-- The rows of a whole screen fit: there is nothing to ask where they lie without gaps. -/
def ScreenFits (d : Display) (g : Guest) (offset : UInt32) : Prop :=
  d.pitch.toUInt32 = d.width.toUInt32 * 4 ∨ ∀ r < d.height.toUInt32.toNat,
    RowFits d g offset (UInt32.ofNat r * (d.width.toUInt32 * 4)) (UInt32.ofNat r * d.pitch.toUInt32)
      (d.width.toUInt32 * 4)

/-- The rows of a clipped rectangle fit. -/
def RectFits (d : Display) (g : Guest) (offset : UInt32) (x y w h : Int32) : Prop :=
  w ≤ 0 ∨ h ≤ 0 ∨ ∀ r < h.toInt.toNat,
    RowFits d g offset (rectRow d x y r).1 (rectRow d x y r).2 (w.toUInt32 * 4)

/-- Both sums of a copy within a memory do not wrap, or the copy is refused or empty. -/
def CopyFits (d : Display) (g : Guest) (dstOffset srcOffset : UInt32) : Prop :=
  g.memSize < dstOffset + totalBytes d ∨ g.memSize < srcOffset + totalBytes d ∨ totalBytes d = 0 ∨
    dstOffset.toNat + (totalBytes d).toNat < 2 ^ 32 ∧ srcOffset.toNat + (totalBytes d).toNat < 2 ^ 32

/-- A blit does not come to divide by a pitch of 0. -/
def BlitFits (e : BlitEnds) (a : BlitArgs) : Prop :=
  (clipSource e.child a).w ≤ 0 ∨ (clipSource e.child a).h ≤ 0 ∨ e.disp.pitch.toUInt32 ≠ 0

/-- The condition for a call to be in bounds. -/
def DisplayCall.Fits (c : DisplayCall) (s : Compositor) (proc : Option Int32) (mem : Option Guest) :
    Prop :=
  match c with
  | .present offset => ∀ d g, s.toHardware proc mem 0 0 = .ok (d, g) → ScreenFits d g offset
  | .presentRect offset x y w h => ∀ d g, s.toHardware proc mem 0 0 = .ok (d, g) →
    let (x, y, w, h) := clipRect d.width.toUInt32 d.height.toUInt32 x y w h
    RectFits d g offset x y w h
  | .copyBuffer dstOffset srcOffset =>
    ∀ d g, s.display = some d → mem = some g → CopyFits d g dstOffset srcOffset
  | .blitSurface winHandle a => ∀ e, s.surfaceEnds proc mem winHandle a = .ok e → BlitFits e a
  | .blitFromPid pid a => ∀ e, s.pidEnds proc pid a = .ok e → BlitFits e a

/-! ## Rows -/

theorem inBounds_returns (res : ℤ) : (BlitRun.returns res).InBounds :=
  ⟨Option.some_ne_none res, fun _ hc => absurd hc List.not_mem_nil⟩

theorem inBounds_copied {copies : List Copy} :
    (BlitRun.copied copies).InBounds ↔ ∀ c ∈ copies, c.InBounds :=
  and_iff_right (Option.some_ne_none (0 : ℤ))

/-- A row is in bounds, if it is copied at all, if and only if it fits. -/
theorem presentRow_iff (d : Display) (g : Guest) (offset srcOff dstOff rowBytes : UInt32) :
    (∀ c, presentRow d g offset srcOff dstOff rowBytes = some c → c.InBounds) ↔
      RowFits d g offset srcOff dstOff rowBytes := by
  unfold presentRow RowFits
  by_cases hr : offset + srcOff + rowBytes ≤ g.memSize
  swap
  · rw [if_neg hr]
    rw [UInt32.not_le] at hr
    exact ⟨fun _ => .inl hr, fun _ c hc => absurd hc (by simp)⟩
  rw [if_pos hr, or_iff_right (UInt32.not_lt.mpr hr)]
  rw [UInt32.le_iff_toNat_le, UInt32.toNat_add, UInt32.toNat_add] at hr
  have hsize := g.memSize.toNat_lt
  have hempty : rowBytes = 0 ↔ rowBytes.toNat = 0 := by
    rw [← UInt32.toNat_inj]
    rfl
  have hcopy : Copy.InBounds ⟨.memory g, .framebuffer d, offset.toNat + srcOff.toNat, dstOff.toNat,
      rowBytes.toNat⟩ ↔ rowBytes.toNat = 0 ∨ offset.toNat + srcOff.toNat + rowBytes.toNat < 2 ^ 32 ∧
        dstOff.toNat + rowBytes.toNat ≤ d.pitch.toNat * d.height.toNat := by
    unfold Copy.InBounds Span.Within Place.size
    dsimp only
    generalize d.pitch.toNat * d.height.toNat = bytes
    omega
  rw [hempty, ← hcopy]
  exact ⟨fun h => h _ rfl, fun h c hc => Option.some.inj hc ▸ h⟩

/-- The rows of a loop are in bounds if and only if each of them is. -/
theorem rows_iff {row : ℕ → Option Copy} {n : ℕ} :
    (∀ c ∈ (List.range n).filterMap row, c.InBounds) ↔ ∀ r < n, ∀ c, row r = some c → c.InBounds := by
  simp only [List.mem_filterMap, List.mem_range]
  exact ⟨fun h r hr c hc => h c ⟨r, hr, hc⟩, fun h c ⟨r, hr, hc⟩ => h r hr c hc⟩

/-- The bytes of a screen without gaps, counted in 32 bits, are bytes of the framebuffer. -/
theorem screenBytes_le (d : Display) :
    (d.pitch.toUInt32 * d.height.toUInt32).toNat ≤ d.pitch.toNat * d.height.toNat := by
  rw [UInt32.toNat_mul, UInt64.toNat_toUInt32, UInt64.toNat_toUInt32]
  exact (Nat.mod_le _ _).trans (Nat.mul_le_mul (Nat.mod_le _ _) (Nat.mod_le _ _))

/-! ## The calls -/

/-- The event that the call pushes has no part in where it goes. -/
theorem toHardware_ok {s : Compositor} {proc : Option Int32} {mem : Option Guest} {d1 d2 : UInt32}
    {d : Display} {g : Guest} :
    s.toHardware proc mem d1 d2 = .ok (d, g) ↔ s.toHardware proc mem 0 0 = .ok (d, g) := by
  unfold toHardware
  cases proc with
  | none => exact Iff.rfl
  | some pid =>
    dsimp only
    split_ifs
    · simp
    · exact Iff.rfl
    · exact Iff.rfl

theorem inBounds_pushed (res : ℤ) (e : Option CompositorEvent) : (⟨some res, e, []⟩ : BlitRun).InBounds :=
  ⟨Option.some_ne_none res, fun _ hc => absurd hc List.not_mem_nil⟩

theorem toHardware_error {s : Compositor} {proc : Option Int32} {mem : Option Guest}
    {d1 d2 : UInt32} {r : BlitRun} (h : s.toHardware proc mem d1 d2 = .error r) : r.InBounds := by
  unfold toHardware at h
  cases proc with
  | none =>
    cases h
    exact inBounds_returns _
  | some pid =>
    dsimp only at h
    by_cases hwin : s.pid ≠ -1 ∧ pid ≠ s.pid
    · rw [if_pos hwin] at h
      cases h
      exact inBounds_pushed _ _
    rw [if_neg hwin] at h
    by_cases hback : s.pid ≠ -1 ∧ pid = s.pid ∧ ¬ s.isActive
    · rw [if_pos hback] at h
      cases h
      exact inBounds_returns _
    rw [if_neg hback] at h
    cases hd : s.display with
    | none =>
      rw [hd] at h
      cases h
      exact inBounds_returns _
    | some d =>
      rw [hd] at h
      dsimp only at h
      by_cases hm : ¬ d.mapped
      · rw [if_pos hm] at h
        cases h
        exact inBounds_returns _
      rw [if_neg hm] at h
      cases mem <;> cases h
      exact inBounds_returns _

/-- A present is in bounds if and only if it is where it comes to the hardware. -/
theorem hardware_iff {s : Compositor} {proc : Option Int32} {mem : Option Guest} (d1 d2 : UInt32)
    {r : BlitRun} {fits : Display → Guest → Prop}
    (he : ∀ r', s.toHardware proc mem d1 d2 = .error r' → r = r')
    (hk : ∀ d g, s.toHardware proc mem d1 d2 = .ok (d, g) → (r.InBounds ↔ fits d g)) :
    r.InBounds ↔ ∀ d g, s.toHardware proc mem 0 0 = .ok (d, g) → fits d g := by
  cases hh : s.toHardware proc mem d1 d2 with
  | error r' =>
    refine ⟨fun _ d g hok => ?_, fun _ => he r' hh ▸ toHardware_error hh⟩
    rw [← toHardware_ok, hh] at hok
    cases hok
  | ok dg =>
    obtain ⟨d, g⟩ := dg
    have hok := toHardware_ok.mp hh
    refine ⟨fun h d' g' hok' => ?_, fun h => (hk d g hh).mpr (h d g hok)⟩
    rw [hok] at hok'
    cases hok'
    exact (hk d g hh).mp h

theorem present_iff (s : Compositor) (proc : Option Int32) (mem : Option Guest) (offset : UInt32) :
    (s.wasmDisplayPresent proc mem offset).InBounds ↔
      (DisplayCall.present offset).Fits s proc mem := by
  unfold wasmDisplayPresent
  refine hardware_iff (proc.getD 0).toUInt32 0 (fun r' hr => by rw [hr]) fun d g hok => ?_
  rw [hok]
  unfold ScreenFits
  dsimp only
  by_cases hgap : d.pitch.toUInt32 = d.width.toUInt32 * 4
  · rw [if_pos hgap]
    refine ⟨fun _ => .inl hgap, fun _ => ?_⟩
    split_ifs with hout
    · exact inBounds_returns _
    rw [not_or, UInt32.not_lt, UInt32.not_lt, UInt32.le_iff_toNat_le, UInt32.le_iff_toNat_le] at hout
    obtain ⟨hoff, hbytes⟩ := hout
    rw [UInt32.toNat_sub_of_le _ _ (UInt32.le_iff_toNat_le.mpr hoff)] at hbytes
    refine inBounds_copied.mpr fun c hc => ?_
    rw [List.mem_singleton.mp hc]
    refine ⟨.inr ?_, .inr ?_⟩
    · have : offset.toNat + (d.pitch.toUInt32 * d.height.toUInt32).toNat ≤ g.memSize.toNat := by omega
      exact this
    · rw [Nat.zero_add]
      exact screenBytes_le d
  · rw [if_neg hgap, or_iff_right hgap, inBounds_copied, rows_iff]
    exact forall₂_congr fun r _ => presentRow_iff d g offset _ _ _

theorem presentRect_iff (s : Compositor) (proc : Option Int32) (mem : Option Guest)
    (offset : UInt32) (x y w h : Int32) :
    (s.wasmDisplayPresentRect proc mem offset x y w h).InBounds ↔
      (DisplayCall.presentRect offset x y w h).Fits s proc mem := by
  unfold wasmDisplayPresentRect
  refine hardware_iff (packPair x y) (packPair w h) (fun r' hr => by rw [hr]) fun d g hok => ?_
  rw [hok]
  dsimp only
  generalize clipRect d.width.toUInt32 d.height.toUInt32 x y w h = r
  obtain ⟨x', y', w', h'⟩ := r
  unfold RectFits
  dsimp only
  by_cases hempty : w' ≤ 0 ∨ h' ≤ 0
  · rw [if_pos hempty]
    exact ⟨fun _ => hempty.imp_right .inl, fun _ => inBounds_returns _⟩
  · rw [if_neg hempty, inBounds_copied, rows_iff]
    rw [not_or] at hempty
    rw [or_iff_right hempty.1, or_iff_right hempty.2]
    exact forall₂_congr fun r _ => presentRow_iff d g offset _ _ _

theorem copyBuffer_iff (s : Compositor) (proc : Option Int32) (mem : Option Guest)
    (dstOffset srcOffset : UInt32) :
    (s.wasmDisplayCopyBuffer mem dstOffset srcOffset).InBounds ↔
      (DisplayCall.copyBuffer dstOffset srcOffset).Fits s proc mem := by
  unfold wasmDisplayCopyBuffer DisplayCall.Fits
  dsimp only
  cases hd : s.display with
  | none => exact ⟨fun _ d g hd' => absurd hd' (by simp), fun _ => inBounds_returns _⟩
  | some d =>
    cases mem with
    | none => exact ⟨fun _ d g _ hg' => absurd hg' (by simp), fun _ => inBounds_returns _⟩
    | some g =>
      dsimp only
      have hfits : (∀ d' g', some d = some d' → some g = some g' →
          CopyFits d' g' dstOffset srcOffset) ↔ CopyFits d g dstOffset srcOffset := by
        refine ⟨fun h => h d g rfl rfl, fun h d' g' hd' hg' => ?_⟩
        cases hd'
        cases hg'
        exact h
      rw [hfits]
      unfold CopyFits
      by_cases hr : g.memSize < dstOffset + totalBytes d ∨ g.memSize < srcOffset + totalBytes d
      · rw [if_pos hr]
        exact ⟨fun _ => hr.imp_right .inl, fun _ => inBounds_returns _⟩
      rw [if_neg hr, inBounds_copied]
      rw [not_or] at hr
      rw [or_iff_right hr.1, or_iff_right hr.2]
      have hempty : totalBytes d = 0 ↔ (totalBytes d).toNat = 0 := by
        rw [← UInt32.toNat_inj]
        rfl
      obtain ⟨hdst, hsrc⟩ := hr
      rw [UInt32.not_lt, UInt32.le_iff_toNat_le, UInt32.toNat_add] at hdst hsrc
      have hsize := g.memSize.toNat_lt
      rw [hempty, List.forall_mem_singleton]
      unfold Copy.InBounds Span.Within Place.size
      dsimp only
      omega

/-- The rows that a blit copies are in both memories: the checks take a length from a size. -/
theorem blitRow_inBounds {e : BlitEnds} {srcRowOff dstRowOff rowBytes : UInt32} {c : Copy}
    (h : blitRow e srcRowOff dstRowOff rowBytes = some c) : c.InBounds := by
  unfold blitRow at h
  split_ifs at h with hin
  obtain rfl := Option.some.inj h
  obtain ⟨h₁, h₂, h₃, h₄⟩ := hin
  rw [UInt32.le_iff_toNat_le, UInt32.toNat_sub_of_le _ _ h₁] at h₂
  rw [UInt32.le_iff_toNat_le, UInt32.toNat_sub_of_le _ _ h₃] at h₄
  rw [UInt32.le_iff_toNat_le] at h₁ h₃
  unfold Copy.InBounds Span.Within Place.size
  dsimp only
  omega

theorem blit_iff (e : BlitEnds) (compositorOffset : UInt32) (a : BlitArgs) :
    (blit e compositorOffset a).InBounds ↔ BlitFits e a := by
  unfold blit BlitFits
  dsimp only
  by_cases hempty : (clipSource e.child a).w ≤ 0 ∨ (clipSource e.child a).h ≤ 0
  · rw [if_pos hempty]
    exact ⟨fun _ => hempty.imp_right .inl, fun _ => inBounds_returns _⟩
  rw [if_neg hempty]
  rw [not_or] at hempty
  rw [or_iff_right hempty.1, or_iff_right hempty.2]
  by_cases hpitch : e.disp.pitch.toUInt32 = 0
  · rw [if_pos hpitch]
    exact ⟨fun h => absurd rfl h.1, fun h => absurd hpitch h⟩
  rw [if_neg hpitch]
  refine ⟨fun _ => hpitch, fun _ => ?_⟩
  generalize clipDest _ _ (clipSource e.child a) = a'
  by_cases hout : a'.w ≤ 0 ∨ a'.h ≤ 0
  · rw [if_pos hout]
    exact inBounds_returns _
  · rw [if_neg hout]
    refine inBounds_copied.mpr (rows_iff.mpr fun y _ c hc => ?_)
    exact blitRow_inBounds hc

theorem ends_iff {ends : Except ℤ BlitEnds} {k : BlitEnds → BlitRun} {fits : BlitEnds → Prop}
    (hk : ∀ e, (k e).InBounds ↔ fits e) :
    (match ends with
      | .error res => BlitRun.returns res
      | .ok e => k e).InBounds ↔ ∀ e, ends = .ok e → fits e := by
  cases ends with
  | error res => exact ⟨fun _ e he => absurd he (by simp), fun _ => inBounds_returns _⟩
  | ok e =>
    refine ⟨fun h e' he' => ?_, fun h => (hk e).mpr (h e rfl)⟩
    cases he'
    exact (hk e).mp h

/-- Bounds of the compositor functions. Every call, in every state of the compositor and on every display,
is in bounds if and only if it fits. -/
theorem inBounds_displayCall_iff (c : DisplayCall) (s : Compositor) (proc : Option Int32)
    (mem : Option Guest) : (c.run s proc mem).InBounds ↔ c.Fits s proc mem := by
  cases c with
  | present offset => exact present_iff s proc mem offset
  | presentRect offset x y w h => exact presentRect_iff s proc mem offset x y w h
  | copyBuffer dstOffset srcOffset => exact copyBuffer_iff s proc mem dstOffset srcOffset
  | blitSurface winHandle a => exact ends_iff fun e => blit_iff e s.bufferOffset a
  | blitFromPid pid a => exact ends_iff fun e => blit_iff e s.bufferOffset a

/-- No compositor, and a screen of eight rows of eight pixels. -/
def smallScreen : Compositor where
  pid := -1
  sessionId := 0
  runtime := none
  bufferOffset := 0
  windows _ := ⟨false, 0, 0, 0, 0, 0, 0, none⟩
  activeSession := none
  display := some ⟨8, 8, 32, true⟩

/-- The sum of an offset near 2^32 and the bytes of a row wraps, and a row from behind the linear memory
goes to the screen. -/
theorem presentRect_not_inBounds :
    ((DisplayCall.presentRect 0xFFFFFFF0 0 0 8 1).run smallScreen (some 1)
        (some ⟨65536, Bytes.zeros⟩)).result = some 0 ∧
      ¬ ((DisplayCall.presentRect 0xFFFFFFF0 0 0 8 1).run smallScreen (some 1)
        (some ⟨65536, Bytes.zeros⟩)).InBounds := by
  refine ⟨by decide +kernel, fun h => ?_⟩
  have hcopy := h.2 ⟨.memory ⟨65536, Bytes.zeros⟩, .framebuffer ⟨8, 8, 32, true⟩, 0xFFFFFFF0, 0, 32⟩
    List.mem_cons_self
  exact absurd hcopy.1 (by decide)

end Sandflea
