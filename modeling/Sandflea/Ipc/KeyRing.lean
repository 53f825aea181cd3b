import Sandflea.Lib.Ring
import Sandflea.Lib.Runs

/-!
# The key ring

The window manager writes keys into a ring in a page that it shares with a terminal (`send_key_to_focused`
in `wm.c`), and the terminal drains the ring when it is signalled (the main loop of `term.c`). Head and
tail are bytes, and the sender does not look at the head. Keys arrive once and in order as long as at most
256 of them are unread, and not exactly 256 when the terminal looks at the tail (`keys_delivered`): a full
ring looks empty then (`burst_of_256_lost`).
-/

namespace Sandflea

/-- Where the window manager is in `send_key_to_focused`. -/
inductive SenderPoint
  | idle
  /-- The key is in the ring. -/
  | stored
  /-- The tail is in the page. -/
  | published
deriving DecidableEq, Repr

/-- Where the terminal is in its main loop. -/
inductive TermPoint
  /-- In `ipc_signal_wait`. -/
  | waiting
  | woken
  | gotHead (head : ℕ)
  | draining (head tail : ℕ)
deriving DecidableEq, Repr

/-- A terminal window with the page that it shares with its program. -/
structure KeyChannel where
  page : ℕ → UInt8
  /-- `shm_tail` of the window -/
  shmTail : ℕ
  sender : SenderPoint
  /-- `SIG_KEY` is pending for the terminal. -/
  pending : Bool
  term : TermPoint
  /-- The keys that were passed to `send_key_to_focused`. -/
  sent : List UInt8
  /-- The keys that the terminal took out of the ring. -/
  consumed : List UInt8

/-- A step of the window manager or of the terminal. -/
inductive KeyStep
  /-- `send_key_to_focused` writes the key. -/
  | store (ch : UInt8)
  /-- It writes the tail. -/
  | publish
  /-- It signals the terminal. -/
  | signal
  /-- `tile_all` writes the size of the client area and signals the terminal. -/
  | tile (cw ch : ℕ)
  /-- The wait of the terminal returns `SIG_KEY`. -/
  | wake
  | readHead
  | readTail
  /-- A turn of the drain loop, or its end with the write of the head. -/
  | turn
deriving DecidableEq, Repr

namespace KeyChannel

/-- A fresh page, in `enqueue_spawn` and `dequeue_pending_spawns` -/
def init : KeyChannel where
  page _ := 0
  shmTail := 0
  sender := .idle
  pending := false
  term := .waiting
  sent := []
  consumed := []

/-- `ipc_shm_write_byte` -/
def writeByte (page : ℕ → UInt8) (offset : ℕ) (x : UInt8) : ℕ → UInt8 := Function.update page offset x

/-- The client area, in four bytes behind the ring -/
def writeSize (page : ℕ → UInt8) (cw ch : ℕ) : ℕ → UInt8 :=
  writeByte (writeByte (writeByte (writeByte page 258 (UInt8.ofNat cw)) 259 (UInt8.ofNat (cw >>> 8)))
    260 (UInt8.ofNat ch)) 261 (UInt8.ofNat (ch >>> 8))

/-- The state after a step -/
def step (s : KeyChannel) : KeyStep → KeyChannel
  | .store ch =>
    if s.sender = .idle then
      { s with
        page := writeByte s.page (2 + s.shmTail % 256) ch
        shmTail := (s.shmTail + 1) % 256
        sender := .stored
        sent := s.sent ++ [ch] }
    else s
  | .publish =>
    if s.sender = .stored then
      { s with page := writeByte s.page 1 (UInt8.ofNat s.shmTail), sender := .published }
    else s
  | .signal => if s.sender = .published then { s with pending := true, sender := .idle } else s
  | .tile cw ch =>
    if s.sender = .idle then { s with page := writeSize s.page cw ch, pending := true } else s
  | .wake =>
    if s.term = .waiting ∧ s.pending then { s with pending := false, term := .woken } else s
  | .readHead => if s.term = .woken then { s with term := .gotHead (s.page 0).toNat } else s
  | .readTail =>
    match s.term with
    | .gotHead head => { s with term := .draining head (s.page 1).toNat }
    | _ => s
  | .turn =>
    match s.term with
    | .draining head tail =>
      if head ≠ tail then
        { s with
          term := .draining ((head + 1) % 256) tail
          consumed := s.consumed ++ [s.page (2 + head)] }
      else { s with page := writeByte s.page 0 (UInt8.ofNat head), term := .waiting }
    | _ => s

/-! ## The property and the condition -/

/-- Nothing is under way. -/
def Quiet (s : KeyChannel) : Prop := s.sender = .idle ∧ s.pending = false ∧ s.term = .waiting

instance (s : KeyChannel) : Decidable s.Quiet := inferInstanceAs (Decidable (_ ∧ _ ∧ _))

/-- The terminal has the first keys that were sent, and all of them when nothing is under way. -/
def Delivered (s : KeyChannel) : Prop := s.consumed <+: s.sent ∧ (s.Quiet → s.consumed = s.sent)

instance (s : KeyChannel) : Decidable s.Delivered := inferInstanceAs (Decidable (_ ∧ (_ → _)))

/-- How many keys the tail in the page counts -/
def published (s : KeyChannel) : ℕ := if s.sender = .stored then s.sent.length - 1 else s.sent.length

/-- How many keys the terminal was signalled for -/
def signalled (s : KeyChannel) : ℕ := if s.sender = .idle then s.sent.length else s.sent.length - 1

/-- A key is sent only while fewer than 256 are unread, and the terminal does not look at the tail when
exactly 256 are. -/
def HasRoom (s : KeyChannel) : KeyStep → Prop
  | .store _ => s.sender = .idle → s.sent.length < s.consumed.length + 256
  | .readTail => s.published ≠ s.consumed.length + 256
  | _ => True

instance (s : KeyChannel) (a : KeyStep) : Decidable (s.HasRoom a) :=
  match a with
  | .store _ => inferInstanceAs (Decidable (_ → _))
  | .readTail => inferInstanceAs (Decidable (_ ≠ _))
  | .publish | .signal | .tile _ _ | .wake | .readHead | .turn => .isTrue trivial

/-! ## The invariant -/

/-- What is true where the terminal is: the head is how many keys it took, and the tail that it drains up
to is how many were published when it looked. -/
def TermAt (s : KeyChannel) : TermPoint → Prop
  | .waiting =>
    (s.page 0).toNat = s.consumed.length % 256 ∧
      (s.pending = false → s.signalled ≤ s.consumed.length)
  | .woken => (s.page 0).toNat = s.consumed.length % 256
  | .gotHead head => head = s.consumed.length % 256
  | .draining head tail =>
    head = s.consumed.length % 256 ∧
      ∃ upTo, tail = upTo % 256 ∧ s.consumed.length ≤ upTo ∧ upTo < s.consumed.length + 256 ∧
        upTo ≤ s.published ∧ (s.pending = false → s.signalled ≤ upTo)

/-- The ring holds the keys that are unread. -/
structure Carried (s : KeyChannel) : Prop where
  tail : s.shmTail = s.sent.length % 256
  shared : (s.page 1).toNat = s.published % 256
  sending : s.sender ≠ .idle → 0 < s.sent.length
  le : s.consumed.length ≤ s.published
  room : s.sent.length ≤ s.consumed.length + 256
  keys : Ring.Holds 256 (fun k => s.page (2 + k)) s.sent s.consumed.length
  firsts : s.consumed <+: s.sent
  term : s.TermAt s.term

theorem carried_init : init.Carried where
  tail := rfl
  shared := rfl
  sending h := absurd rfl h
  le := le_rfl
  room := by decide
  keys k x hk hx := by simp [init] at hx
  firsts := List.nil_prefix
  term := ⟨rfl, fun _ => le_rfl⟩

theorem published_le (s : KeyChannel) : s.published ≤ s.sent.length := by
  unfold published
  split <;> omega

theorem Carried.delivered {s : KeyChannel} (h : s.Carried) : s.Delivered := by
  refine ⟨h.firsts, fun ⟨hidle, hpending, hwaiting⟩ => ?_⟩
  have hterm := h.term
  rw [hwaiting] at hterm
  have hall := hterm.2 hpending
  rw [signalled, if_pos hidle] at hall
  exact h.firsts.eq_of_length_le hall

/-! ## Steps -/

section

variable {s : KeyChannel}

@[simp] theorem writeByte_self (page : ℕ → UInt8) (offset : ℕ) (x : UInt8) :
    writeByte page offset x offset = x := by simp [writeByte]

theorem writeByte_of_ne {page : ℕ → UInt8} {offset i : ℕ} (h : i ≠ offset) (x : UInt8) :
    writeByte page offset x i = page i := by simp [writeByte, h]

theorem writeSize_of_lt {page : ℕ → UInt8} {i : ℕ} (h : i < 258) (cw ch : ℕ) :
    writeSize page cw ch i = page i := by
  unfold writeSize
  rw [writeByte_of_ne (by omega), writeByte_of_ne (by omega), writeByte_of_ne (by omega),
    writeByte_of_ne (by omega)]

/-- What is true where the terminal is stays true when the sender goes on. -/
theorem TermAt.mono {t : KeyChannel} {p : TermPoint} (h : s.TermAt p) (h0 : t.page 0 = s.page 0)
    (hc : t.consumed = s.consumed) (hpub : s.published ≤ t.published)
    (hsig : t.pending = false → s.pending = false ∧ t.signalled ≤ s.signalled) : t.TermAt p := by
  cases p with
  | waiting =>
    refine ⟨by rw [h0, hc]; exact h.1, fun hp => ?_⟩
    obtain ⟨hp', hle⟩ := hsig hp
    rw [hc]
    exact hle.trans (h.2 hp')
  | woken =>
    show (t.page 0).toNat = t.consumed.length % 256
    rw [h0, hc]
    exact h
  | gotHead head =>
    show head = t.consumed.length % 256
    rw [hc]
    exact h
  | draining head tail =>
    obtain ⟨hhead, upTo, htail, hle, hlt, hpub', hsig'⟩ := h
    refine ⟨by rw [hc]; exact hhead, upTo, htail, by rw [hc]; exact hle, by rw [hc]; exact hlt,
      hpub'.trans hpub, fun hp => ?_⟩
    obtain ⟨hp', hle'⟩ := hsig hp
    exact hle'.trans (hsig' hp')

/-- A write outside the ring leaves the keys in it. -/
theorem Carried.keys_writeByte (h : s.Carried) {offset : ℕ} (hout : offset < 2 ∨ 258 ≤ offset)
    (x : UInt8) :
    Ring.Holds 256 (fun k => writeByte s.page offset x (2 + k)) s.sent s.consumed.length :=
  h.keys.congr (by decide) fun i hi => writeByte_of_ne (by omega) x

theorem toNat_ofNat_mod (n : ℕ) : (UInt8.ofNat (n % 256)).toNat = n % 256 := by
  rw [UInt8.toNat_ofNat']
  omega

/-- The key goes into the next cell. -/
theorem Carried.store (h : s.Carried) (hidle : s.sender = .idle)
    (hroom : s.sent.length < s.consumed.length + 256) (ch : UInt8) : (s.step (.store ch)).Carried := by
  have hstep : s.step (.store ch) =
      { s with
        page := writeByte s.page (2 + s.shmTail % 256) ch
        shmTail := (s.shmTail + 1) % 256
        sender := .stored
        sent := s.sent ++ [ch] } := if_pos hidle
  have htail := h.tail
  have hcell : 2 + s.shmTail % 256 = 2 + s.sent.length % 256 := by rw [htail]; omega
  have hpub : s.published = s.sent.length := if_neg (by rw [hidle]; decide)
  have hlow : ∀ offset < 2, writeByte s.page (2 + s.shmTail % 256) ch offset = s.page offset :=
    fun offset ho => writeByte_of_ne (by omega) ch
  rw [hstep]
  refine ⟨?_, ?_, ?_, ?_, ?_, ?_, ?_, ?_⟩
  · simp only [List.length_append, List.length_singleton]
    omega
  · simp only [hlow 1 (by decide), published, List.length_append, List.length_singleton]
    rw [h.shared, hpub]
    simp
  · intro _
    simp
  · have := h.le
    simp only [published, List.length_append, List.length_singleton]
    simp
    omega
  · simp only [List.length_append, List.length_singleton]
    omega
  · intro k x hk hx
    have hpush := h.keys.push (by omega) ch k x hk hx
    simp only [hcell]
    rw [← hpush]
    by_cases hk' : k % 256 = s.sent.length % 256
    · rw [hk', writeByte_self, Function.update_self]
    · rw [writeByte_of_ne (by omega), Function.update_of_ne hk']
  · exact h.firsts.trans (List.prefix_append _ _)
  · refine h.term.mono (hlow 0 (by decide)) rfl ?_ fun hp => ⟨hp, ?_⟩
    · simp [published, hidle]
    · simp [signalled, hidle]

/-- The tail in the page counts the key. -/
theorem Carried.publish (h : s.Carried) : (s.step .publish).Carried := by
  by_cases hstored : s.sender = .stored
  · have hstep : s.step .publish =
        { s with page := writeByte s.page 1 (UInt8.ofNat s.shmTail), sender := .published } :=
      if_pos hstored
    have hpos := h.sending (by rw [hstored]; decide)
    have hpub : s.published = s.sent.length - 1 := if_pos hstored
    have hle := h.le
    rw [hstep]
    refine ⟨h.tail, ?_, fun _ => hpos, ?_, h.room, ?_, h.firsts, ?_⟩
    · simp only [writeByte_self, published]
      rw [h.tail]
      exact toNat_ofNat_mod _
    · simp only [published]
      simp
      omega
    · exact h.keys_writeByte (.inl (by decide)) _
    · have hhead : writeByte s.page 1 (UInt8.ofNat s.shmTail) 0 = s.page 0 :=
        writeByte_of_ne Nat.zero_ne_one _
      refine h.term.mono hhead rfl ?_ fun hp => ⟨hp, ?_⟩
      · simp [published, hstored]
      · simp [signalled, hstored]
  · have hstep : s.step .publish = s := if_neg hstored
    rw [hstep]
    exact h

/-- The terminal is signalled. -/
theorem Carried.signal (h : s.Carried) : (s.step .signal).Carried := by
  by_cases hpub : s.sender = .published
  · have hstep : s.step .signal = { s with pending := true, sender := .idle } := if_pos hpub
    have heq : s.published = s.sent.length := if_neg (by rw [hpub]; decide)
    rw [hstep]
    refine ⟨h.tail, ?_, fun hne => absurd rfl hne, ?_, h.room, h.keys, h.firsts, ?_⟩
    · have := h.shared
      rw [heq] at this
      exact this
    · have := h.le
      rw [heq] at this
      exact this
    · exact h.term.mono rfl rfl (s.published_le) fun hp => nomatch hp
  · have hstep : s.step .signal = s := if_neg hpub
    rw [hstep]
    exact h

/-- The size of the client area is outside the ring. -/
theorem Carried.tile (h : s.Carried) (cw ch : ℕ) : (s.step (.tile cw ch)).Carried := by
  by_cases hidle : s.sender = .idle
  · have hstep : s.step (.tile cw ch) = { s with page := writeSize s.page cw ch, pending := true } :=
      if_pos hidle
    rw [hstep]
    refine ⟨h.tail, ?_, h.sending, h.le, h.room, ?_, h.firsts, ?_⟩
    · simp only [writeSize_of_lt (show 1 < 258 by decide)]
      exact h.shared
    · exact h.keys.congr (by decide) fun i hi => writeSize_of_lt (by omega) cw ch
    · have hhead : writeSize s.page cw ch 0 = s.page 0 := writeSize_of_lt (by decide) cw ch
      exact h.term.mono hhead rfl le_rfl fun hp => nomatch hp
  · have hstep : s.step (.tile cw ch) = s := if_neg hidle
    rw [hstep]
    exact h

/-- The terminal wakes up. -/
theorem Carried.wake (h : s.Carried) : (s.step .wake).Carried := by
  by_cases hwake : s.term = .waiting ∧ s.pending
  · have hstep : s.step .wake = { s with pending := false, term := .woken } := if_pos hwake
    have hterm := h.term
    rw [hwake.1] at hterm
    rw [hstep]
    exact ⟨h.tail, h.shared, h.sending, h.le, h.room, h.keys, h.firsts, hterm.1⟩
  · have hstep : s.step .wake = s := if_neg hwake
    rw [hstep]
    exact h

/-- The head in the page is how many keys were taken. -/
theorem Carried.readHead (h : s.Carried) : (s.step .readHead).Carried := by
  by_cases hwoken : s.term = .woken
  · have hstep : s.step .readHead = { s with term := .gotHead (s.page 0).toNat } := if_pos hwoken
    have hterm := h.term
    rw [hwoken] at hterm
    rw [hstep]
    exact ⟨h.tail, h.shared, h.sending, h.le, h.room, h.keys, h.firsts, hterm⟩
  · have hstep : s.step .readHead = s := if_neg hwoken
    rw [hstep]
    exact h

/-- The tail in the page is how many keys were published, unless the ring is full. -/
theorem Carried.readTail (h : s.Carried) (hroom : s.HasRoom .readTail) :
    (s.step .readTail).Carried := by
  cases hterm : s.term with
  | gotHead head =>
    have hstep : s.step .readTail = { s with term := .draining head (s.page 1).toNat } := by
      simp [step, hterm]
    have hat := h.term
    rw [hterm] at hat
    have hfull : s.published ≠ s.consumed.length + 256 := hroom
    have hle := s.published_le
    have hroom' := h.room
    rw [hstep]
    have hlt : s.published < s.consumed.length + 256 := by omega
    refine ⟨h.tail, h.shared, h.sending, h.le, h.room, h.keys, h.firsts, hat, s.published, h.shared,
      h.le, hlt, le_rfl, fun _ => ?_⟩
    show s.signalled ≤ s.published
    unfold signalled published
    split <;> split <;> simp_all
  | waiting | woken | draining head tail =>
    have hstep : s.step .readTail = s := by simp [step, hterm]
    rw [hstep]
    exact h

/-- The drain loop takes the next key, or comes to its end. -/
theorem Carried.turn (h : s.Carried) : (s.step .turn).Carried := by
  cases hterm : s.term with
  | draining head tail =>
    have hat := h.term
    rw [hterm] at hat
    obtain ⟨hhead, upTo, htail, hle, hlt, hpub, hsig⟩ := hat
    have hpubLe := s.published_le
    by_cases hne : head ≠ tail
    · have hstep : s.step .turn =
          { s with
            term := .draining ((head + 1) % 256) tail
            consumed := s.consumed ++ [s.page (2 + head)] } := by
        simp [step, hterm, hne]
      have hmore : s.consumed.length ≠ upTo := by
        rintro rfl
        exact hne (hhead.trans htail.symm)
      have hkey := h.keys.first (show s.consumed.length < s.sent.length by omega)
      have hroom := h.room
      rw [hstep]
      refine ⟨h.tail, h.shared, h.sending, ?_, ?_, ?_, ?_, ?_, upTo, htail, ?_, ?_, hpub, hsig⟩
      all_goals simp only [List.length_append, List.length_singleton]
      · exact (show s.consumed.length + 1 ≤ s.published by omega)
      · omega
      · exact h.keys.mono (by omega)
      · rw [hhead]
        exact Ring.prefix_concat h.firsts hkey
      · omega
      · omega
      · omega
    · have hstep : s.step .turn =
          { s with page := writeByte s.page 0 (UInt8.ofNat head), term := .waiting } := by
        simp [step, hterm, hne]
      -- Head and tail are equal and less than a round apart, so the terminal has all up to the tail.
      have hall : s.consumed.length = upTo := by
        refine (Ring.mod_eq_mod_iff hle hlt).mp ?_
        rw [← hhead, ← htail]
        exact not_not.mp hne
      have hpage : ∀ offset ≠ 0, writeByte s.page 0 (UInt8.ofNat head) offset = s.page offset :=
        fun offset ho => writeByte_of_ne ho _
      rw [hstep]
      refine ⟨h.tail, ?_, h.sending, h.le, h.room, h.keys_writeByte (.inl (by decide)) _, h.firsts, ?_,
        fun hp => ?_⟩
      · simp only [hpage 1 one_ne_zero]
        exact h.shared
      · simp only [writeByte_self]
        rw [hhead]
        exact toNat_ofNat_mod _
      · exact (hsig hp).trans hall.ge
  | waiting | woken | gotHead head =>
    have hstep : s.step .turn = s := by simp [step, hterm]
    rw [hstep]
    exact h

/-- A step that meets the condition keeps the invariant. -/
theorem Carried.step (h : s.Carried) {a : KeyStep} (ha : s.HasRoom a) : (s.step a).Carried := by
  cases a with
  | store ch =>
    by_cases hidle : s.sender = .idle
    · exact h.store hidle (ha hidle) ch
    · have hstep : s.step (.store ch) = s := if_neg hidle
      rw [hstep]
      exact h
  | publish => exact h.publish
  | signal => exact h.signal
  | tile cw ch => exact h.tile cw ch
  | wake => exact h.wake
  | readHead => exact h.readHead
  | readTail => exact h.readTail ha
  | turn => exact h.turn

end

/-- In a run whose steps all meet the condition, the terminal gets the keys once and in order. -/
theorem keys_delivered {as : List KeyStep} (h : Runs.Along step HasRoom init as) :
    Runs.Always step Delivered init as := by
  have hcarried := Runs.always_of_along (P := Carried) (fun s a hs ha => hs.step ha) carried_init h
  exact hcarried.mono fun s hs => hs.delivered

/-- `send_key_to_focused`, without a step of the terminal in between -/
def send (ch : UInt8) : List KeyStep := [.store ch, .publish, .signal]

/-- The terminal wakes up and drains a ring with `n` keys. -/
def drain (n : ℕ) : List KeyStep := [.wake, .readHead, .readTail] ++ List.replicate (n + 1) .turn

/-- A key that is sent during a drain is taken by the next. -/
theorem keys_delivered_duringDrain :
    Runs.Always step Delivered init
      (send 97 ++ [.wake, .readHead, .readTail] ++ send 98 ++ [.turn, .turn] ++ drain 1) :=
  keys_delivered (by decide +kernel)

/-- After 256 keys the ring looks empty. -/
theorem burst_of_256_lost :
    ¬ Runs.Always step Delivered init ((List.range 256).flatMap (fun _ => send 97) ++ drain 0) := by
  intro h
  exact absurd h.last (by decide +kernel)

end KeyChannel

end Sandflea
