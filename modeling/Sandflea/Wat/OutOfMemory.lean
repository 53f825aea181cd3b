import Sandflea.Wat.Compile

/-!
# The WAT compiler without memory

Which allocations fail makes a difference to the compiler only from the first one on that fails. If a `wb1` of
`parse_body` makes that one, everything is freed and the compiler fails; if another `wb1` makes it, the compiler fails
and frees nothing; if `wb_emit` or `wb_sec_start` make it, bytes are missing and the compiler goes on.
-/

namespace Sandflea

namespace Wat

/-! ## One write -/

section

variable {b b' : Wbin} {m m' : Allocs}

/-- What growing a buffer does: nothing; it goes on for ever; or it asks for a block. -/
theorem wbGrow_cases (need : UInt32) (b : Wbin) (m : Allocs) :
    (∀ alloc, wbGrow alloc need b m = some (true, b, m)) ∨ (∀ alloc, wbGrow alloc need b m = none) ∨
      ∃ f : Bytes → Wbin, (∀ p, (f p).block = some m.calls) ∧ ∀ alloc, wbGrow alloc need b m =
        some (match alloc m.calls with
          | none => (false, b, ⟨m.calls + 1, m.live⟩)
          | some p => (true, f p, ⟨m.calls + 1, b.block.elim (m.calls :: m.live) (m.calls :: m.live).erase⟩)) := by
  unfold wbGrow
  split
  · exact .inl fun _ => rfl
  · right
    cases growLoop 33 (if b.cap ≠ 0 then b.cap * 2 else 4096) (b.size + need) with
    | none => exact .inl fun _ => rfl
    | some cap =>
      right
      cases hblock : b.block with
      | none =>
        refine ⟨fun p => ⟨some m.calls, p, b.size, cap⟩, fun _ => rfl, fun alloc => ?_⟩
        cases alloc m.calls <;> rfl
      | some old =>
        refine ⟨fun p => ⟨some m.calls, Bytes.copyInto p 0 b.data 0 b.size.toNat, b.size, cap⟩, fun _ => rfl,
          fun alloc => ?_⟩
        cases alloc m.calls <;> rfl

theorem block_foldl_put (vs : List UInt8) (b : Wbin) : (vs.foldl Wbin.put b).block = b.block := by
  induction vs generalizing b with
  | nil => rfl
  | cons v vs ih => exact ih (b.put v)

/-- What a write does: it has room; it goes on for ever; or it asks for a block, and if there is none it changes
nothing. -/
theorem Write.run_cases (w : Write) (b : Wbin) (m : Allocs) :
    (∃ b', b'.block = b.block ∧ ∀ alloc, w.run alloc b m = some (true, b', m)) ∨
      (∀ alloc, w.run alloc b m = none) ∨
      ∃ f : Bytes → Wbin, (∀ p, (f p).block = some m.calls) ∧ ∀ alloc, w.run alloc b m =
        some (match alloc m.calls with
          | none => (!w.isPut, b, ⟨m.calls + 1, m.live⟩)
          | some p => (true, f p, ⟨m.calls + 1, b.block.elim (m.calls :: m.live) (m.calls :: m.live).erase⟩)) := by
  cases w with
  | put vs =>
    rcases wbGrow_cases (UInt32.ofNat vs.length) b m with hroom | hendless | ⟨f, hf, hasks⟩
    · refine .inl ⟨vs.foldl Wbin.put b, block_foldl_put vs b, fun alloc => ?_⟩
      rw [Write.run, wbPut, hroom]
      rfl
    · refine .inr (.inl fun alloc => ?_)
      rw [Write.run, wbPut, hendless]
      rfl
    · refine .inr (.inr ⟨fun p => vs.foldl Wbin.put (f p), fun p => (block_foldl_put vs _).trans (hf p),
        fun alloc => ?_⟩)
      rw [Write.run, wbPut, hasks]
      cases alloc m.calls <;> rfl
  | emit src =>
    rcases wbGrow_cases (UInt32.ofNat src.length) b m with hroom | hendless | ⟨f, hf, hasks⟩
    · refine .inl ⟨{ b with
        data := Bytes.copyInto b.data b.size.toNat (fun i => src.getD i 0) 0 src.length
        size := b.size + UInt32.ofNat src.length }, rfl, fun alloc => ?_⟩
      rw [Write.run, wbEmit, hroom]
      rfl
    · refine .inr (.inl fun alloc => ?_)
      rw [Write.run, wbEmit, hendless]
      rfl
    · refine .inr (.inr ⟨fun p => { f p with
        data := Bytes.copyInto (f p).data (f p).size.toNat (fun i => src.getD i 0) 0 src.length
        size := (f p).size + UInt32.ofNat src.length }, hf, fun alloc => ?_⟩)
      rw [Write.run, wbEmit, hasks]
      cases alloc m.calls <;> rfl

end

/-! ## Writes, and the callers -/

namespace Mem

/-- Every call has its caller. -/
def Good (s : Mem) : Prop := s.callers.length = s.heap.calls

/-- A state that comes after another one -/
structure Later (s s' : Mem) : Prop where
  calls : s.heap.calls ≤ s'.heap.calls
  callers : s.callers <+: s'.callers
  good : s.Good → s'.Good

theorem Later.refl (s : Mem) : s.Later s := ⟨le_refl _, List.prefix_rfl, id⟩

theorem Later.trans {s s' s'' : Mem} (h : s.Later s') (h' : s'.Later s'') : s.Later s'' :=
  ⟨h.calls.trans h'.calls, h.callers.trans h'.callers, h'.good ∘ h.good⟩

/-- What is known of a call stays known. -/
theorem Later.getElem? {s s' : Mem} (h : s.Later s') {k : ℕ} {caller : Caller} (hk : s.callers[k]? = some caller) :
    s'.callers[k]? = some caller := by
  obtain ⟨rest, hrest⟩ := h.callers
  obtain ⟨hlt, -⟩ := List.getElem?_eq_some_iff.mp hk
  rw [← hrest, List.getElem?_append_left hlt, hk]

theorem later_set (s : Mem) (buf : Buf) (b : Wbin) {m : Allocs} (hm : s.heap.calls ≤ m.calls) (caller : Caller) :
    s.Later (s.set buf b m caller) where
  calls := hm
  callers := List.prefix_append _ _
  good hs := by
    show (s.callers ++ List.replicate (m.calls - s.heap.calls) caller).length = m.calls
    rw [List.length_append, List.length_replicate, hs]
    omega

theorem later_free (s : Mem) (buf : Buf) : s.Later (s.free buf) := ⟨le_refl _, List.prefix_rfl, id⟩

/-- Where writes end -/
def ended : Except Mem (Bool × Mem) → Mem
  | .error s => s
  | .ok (_, s) => s

theorem calls_le_of_run {alloc : ℕ → Option Bytes} {w : Write} {b b' : Wbin} {m m' : Allocs} {ok : Bool}
    (h : w.run alloc b m = some (ok, b', m')) : m.calls ≤ m'.calls := by
  rcases w.run_cases b m with ⟨b₁, -, hroom⟩ | hendless | ⟨f, -, hasks⟩
  · rw [hroom] at h
    cases h
    exact le_refl _
  · rw [hendless] at h
    cases h
  · rw [hasks] at h
    split at h
    · cases h
      exact Nat.le_succ _
    · cases h
      exact Nat.le_succ _

theorem later_writes (alloc : ℕ → Option Bytes) (caller : Caller) (buf : Buf) (ws : List Write) (s : Mem) :
    s.Later (ended (s.writes alloc caller buf ws)) := by
  induction ws generalizing s with
  | nil => exact Later.refl s
  | cons w ws ih =>
    rw [writes]
    split
    · exact Later.refl s
    · rename_i ok b m hrun
      have hset := s.later_set buf b (calls_le_of_run hrun) (if w.isPut then caller else .drops)
      dsimp only
      split
      · exact hset.trans (ih _)
      · exact hset

section

variable {alloc ref : ℕ → Option Bytes} {K : ℕ}

/-- Where the allocations fail first, and what they give if none fails -/
structure FirstFailure (alloc ref : ℕ → Option Bytes) (K : ℕ) : Prop where
  fails : alloc K = none
  before : ∀ j < K, alloc j = ref j
  never : ∀ k, ref k ≠ none

/-- Writes are the same if they do not come to the first failure. If they do, it is not noticed, or a `wb1` returns. -/
theorem writes_lockstep (h : FirstFailure alloc ref K) (caller : Caller) (buf : Buf) (ws : List Write) {s : Mem}
    (hgood : s.Good) (hs : s.heap.calls ≤ K) :
    ((ended (s.writes ref caller buf ws)).heap.calls ≤ K ∧ s.writes alloc caller buf ws = s.writes ref caller buf ws) ∨
      (K < (ended (s.writes ref caller buf ws)).heap.calls ∧
        ((ended (s.writes ref caller buf ws)).callers[K]? = some .drops ∨
          ((ended (s.writes ref caller buf ws)).callers[K]? = some caller ∧
            ∃ s', s.writes alloc caller buf ws = .ok (false, s')))) := by
  induction ws generalizing s with
  | nil => exact .inl ⟨hs, rfl⟩
  | cons w ws ih =>
    rcases w.run_cases (s.bufs buf) s.heap with ⟨b', -, hroom⟩ | hendless | ⟨f, -, hasks⟩
    · rw [writes, writes, hroom, hroom]
      exact ih ((s.later_set buf b' (le_refl _) _).good hgood) hs
    · rw [writes, writes, hendless, hendless]
      exact .inl ⟨hs, rfl⟩
    · obtain ⟨p, hp⟩ := Option.ne_none_iff_exists'.mp (h.never s.heap.calls)
      rcases hs.lt_or_eq with hlt | heq
      · rw [writes, writes, hasks, hasks, h.before _ hlt, hp]
        exact ih ((s.later_set buf (f p) (Nat.le_succ _) _).good hgood) hlt
      · -- the failure
        right
        subst heq
        rw [writes, writes, hasks, hasks, h.fails, hp]
        dsimp only
        rw [if_pos rfl]
        have hknown : (s.set buf (f p) ⟨s.heap.calls + 1, (s.bufs buf).block.elim (s.heap.calls :: s.heap.live)
            (s.heap.calls :: s.heap.live).erase⟩ (if w.isPut then caller else .drops)).callers[s.heap.calls]? =
            some (if w.isPut then caller else .drops) := by
          show (s.callers ++ List.replicate (s.heap.calls + 1 - s.heap.calls) _)[s.heap.calls]? = _
          rw [Nat.add_sub_cancel_left, ← hgood, List.getElem?_append_right (le_refl _), Nat.sub_self]
          rfl
        have hcalls : (s.set buf (f p) ⟨s.heap.calls + 1, (s.bufs buf).block.elim (s.heap.calls :: s.heap.live)
            (s.heap.calls :: s.heap.live).erase⟩ (if w.isPut then caller else .drops)).heap.calls =
            s.heap.calls + 1 := rfl
        generalize s.set buf (f p) _ (if w.isPut then caller else .drops) = s₁ at hknown hcalls ⊢
        have hrest := later_writes ref caller buf ws s₁
        have hpassed := hrest.calls
        refine ⟨by omega, ?_⟩
        rw [hrest.getElem? hknown]
        cases w.isPut with
        | false => exact .inl rfl
        | true => exact .inr ⟨rfl, _, rfl⟩

end

end Mem

/-! ## Runs up to the first failure -/

section

variable {alloc ref : ℕ → Option Bytes} {K : ℕ} {s : Mem}

/-- What holds where writes end holds in the end, if what comes after them keeps it. -/
theorem final_after {ρ : Type} {P : Mem → Prop} {r : Except Mem (Bool × Mem)}
    {k : Bool → Mem → Except (Exit × Mem) (ρ × Mem)} (hr : P (Mem.ended r))
    (hk : ∀ ok s, P s → P (Prog.final Prod.snd (k ok s))) : P (Prog.final Prod.snd (after r k)) := by
  rcases r with s | ⟨ok, s⟩
  · exact hr
  · exact hk ok s hr

theorem ends_after {ρ : Type} {P : Mem → Prop} {r : Except Mem (Bool × Mem)}
    {k : Bool → Mem → Except (Exit × Mem) (ρ × Mem)} {E : Exit × Mem → Prop} {R : ρ → Mem → Prop}
    (hr : P (Mem.ended r)) (hendless : ∀ s, P s → E (.endless, s)) (hk : ∀ ok s, P s → Prog.Ends E R (k ok s)) :
    Prog.Ends E R (after r k) := by
  rcases r with s | ⟨ok, s⟩
  · exact hendless s hr
  · exact hk ok s hr

/-- What comes after writes makes no calls. -/
structure Quiet {ρ : Type} (k : Bool → Mem → Except (Exit × Mem) (ρ × Mem)) : Prop where
  calls : ∀ ok s, (Prog.final Prod.snd (k ok s)).heap.calls = s.heap.calls
  callers : ∀ ok s, (Prog.final Prod.snd (k ok s)).callers = s.callers

theorem Quiet.later {ρ : Type} {k : Bool → Mem → Except (Exit × Mem) (ρ × Mem)} (hk : Quiet k)
    {r : Except Mem (Bool × Mem)} (h : s.Later (Mem.ended r)) : s.Later (Prog.final Prod.snd (after r k)) := by
  refine final_after h fun ok s' h' => ⟨h'.calls.trans (hk.calls ok s').ge,
    h'.callers.trans (hk.callers ok s' ▸ List.prefix_rfl), fun hs => ?_⟩
  show (Prog.final Prod.snd (k ok s')).callers.length = (Prog.final Prod.snd (k ok s')).heap.calls
  rw [hk.callers, hk.calls]
  exact h'.good hs

theorem quiet_write : Quiet fun ok s => if ok then Except.ok ((), s) else .error (Exit.leaves, s) where
  calls ok s := by cases ok <;> rfl
  callers ok s := by cases ok <;> rfl

theorem quiet_body : Quiet fun ok s =>
    if ok then Except.ok ((), s) else .error (Exit.error, (s.free .locals).free .body) where
  calls ok s := by cases ok <;> rfl
  callers ok s := by cases ok <;> rfl

theorem quiet_ok {ρ : Type} (f : Bool → ρ) :
    Quiet fun ok s => (.ok (f ok, s) : Except (Exit × Mem) (ρ × Mem)) :=
  ⟨fun _ _ => rfl, fun _ _ => rfl⟩

theorem later_step (alloc : ℕ → Option Bytes) (op : Op) (s : Mem) :
    s.Later (Prog.final Prod.snd (step alloc op s)) := by
  cases op with
  | write buf ws => exact quiet_write.later (s.later_writes alloc .leaves buf ws)
  | body ws => exact quiet_body.later (s.later_writes alloc .body .body ws)
  | init ws => exact (quiet_ok id).later (s.later_writes alloc .drops .glob ws)
  | contents buf => exact Mem.Later.refl s
  | free buf => exact s.later_free buf
  | secStart id => exact (quiet_ok _).later (s.later_writes alloc .drops .out _)
  | secEnd pos => exact ⟨le_refl _, List.prefix_rfl, id⟩
  | exit e => exact Mem.Later.refl s

/-- How the compiler stops when the call of a caller fails -/
def Caller.exit : Caller → Exit
  | body => .error
  | leaves => .leaves
  | drops => .outside

/-- What two meanings of a command have in common, where the one fails first at a call of a caller -/
def Lockstep {ρ : Type} (K : ℕ) (caller : Caller) (r r' : Except (Exit × Mem) (ρ × Mem)) : Prop :=
  ((Prog.final Prod.snd r').heap.calls ≤ K ∧ r = r') ∨
    (K < (Prog.final Prod.snd r').heap.calls ∧
      ((Prog.final Prod.snd r').callers[K]? = some caller → ∃ e, r = .error e ∧ e.1 = caller.exit))

theorem Quiet.lockstep {ρ : Type} {k : Bool → Mem → Except (Exit × Mem) (ρ × Mem)} (hk : Quiet k)
    (h : Mem.FirstFailure alloc ref K) {caller : Caller} (hcaller : caller ≠ .drops) {made : Caller}
    (hstops : made = caller → ∀ s', ∃ e, k false s' = .error e ∧ e.1 = caller.exit) (buf : Buf) (ws : List Write)
    (hgood : s.Good) (hs : s.heap.calls ≤ K) :
    Lockstep K caller (after (s.writes alloc made buf ws) k) (after (s.writes ref made buf ws) k) := by
  have hended : ∀ r : Except Mem (Bool × Mem), (Prog.final Prod.snd (after r k)).heap.calls = (Mem.ended r).heap.calls ∧
      (Prog.final Prod.snd (after r k)).callers = (Mem.ended r).callers := by
    rintro (s' | ⟨ok, s'⟩)
    · exact ⟨rfl, rfl⟩
    · exact ⟨hk.calls ok s', hk.callers ok s'⟩
  obtain ⟨hcalls, hcallers⟩ := hended (s.writes ref made buf ws)
  unfold Lockstep
  rw [hcalls, hcallers]
  rcases s.writes_lockstep h made buf ws hgood hs with ⟨hle, heq⟩ | ⟨hlt, hdrops | ⟨hmade, s', hs'⟩⟩
  · exact .inl ⟨hle, by rw [heq]⟩
  · refine .inr ⟨hlt, fun hknown => ?_⟩
    exact absurd (Option.some.inj (hknown.symm.trans hdrops)) hcaller
  · refine .inr ⟨hlt, fun hknown => ?_⟩
    rw [hs']
    exact hstops (Option.some.inj (hmade.symm.trans hknown)) s'

/-- A command is the same if it does not come to the first failure. If it does, and a `wb1` made that call, it stops. -/
theorem step_lockstep (h : Mem.FirstFailure alloc ref K) {caller : Caller} (hcaller : caller ≠ .drops) (op : Op)
    (hgood : s.Good) (hs : s.heap.calls ≤ K) : Lockstep K caller (step alloc op s) (step ref op s) := by
  cases op with
  | write buf ws => exact quiet_write.lockstep h hcaller (fun heq s' => ⟨_, rfl, heq ▸ rfl⟩) buf ws hgood hs
  | body ws => exact quiet_body.lockstep h hcaller (fun heq s' => ⟨_, rfl, heq ▸ rfl⟩) .body ws hgood hs
  | init ws => exact (quiet_ok id).lockstep h hcaller (fun heq => absurd heq.symm hcaller) .glob ws hgood hs
  | contents buf => exact .inl ⟨hs, rfl⟩
  | free buf => exact .inl ⟨hs, rfl⟩
  | secStart id => exact (quiet_ok _).lockstep h hcaller (fun heq => absurd heq.symm hcaller) .out _ hgood hs
  | secEnd pos => exact .inl ⟨hs, rfl⟩
  | exit e => exact .inl ⟨hs, rfl⟩

/-- A run is the same if it does not come to the first failure. If it does, and a `wb1` made that call, it stops. -/
theorem exec_lockstep {α : Type} (h : Mem.FirstFailure alloc ref K) (caller : Caller) (hcaller : caller ≠ .drops)
    (p : Prog Op Op.Resp α) (hgood : s.Good) (hs : s.heap.calls ≤ K) :
    Lockstep K caller (p.exec (step alloc) s) (p.exec (step ref) s) := by
  have hlater : ∀ op (s : Mem), s.Later (Prog.final Prod.snd (step ref op s)) := later_step ref
  have hrun := Prog.exec_lockstep (step alloc) (step ref) Prod.snd Mem.Good (fun s => K < s.heap.calls)
    (fun s => s.callers[K]? = some caller) (fun e => e.1 = caller.exit) (fun op s hs r hr => ?_)
    (fun op s hs hlate => ?_) (fun op s hs hbefore hafter => ?_) (fun op s hs hbefore hpast hknown => ?_) p hgood
    hs.not_gt
  · exact hrun.imp_left fun hsame => ⟨Nat.le_of_not_lt hsame.1, hsame.2⟩
  · have hgood' := (hlater op s).good hs
    rwa [hr] at hgood'
  · refine ⟨hlate.trans_le (hlater op s).calls, fun hknown => ?_⟩
    have hlt : K < s.callers.length := by rwa [hs]
    rw [← hknown, (hlater op s).getElem? (List.getElem?_eq_getElem hlt), List.getElem?_eq_getElem hlt]
  · exact ((step_lockstep h hcaller op hs (Nat.le_of_not_lt hbefore)).resolve_right fun hpast => hafter hpast.1).2
  · exact ((step_lockstep h hcaller op hs (Nat.le_of_not_lt hbefore)).resolve_left
      fun hsame => hsame.1.not_gt hpast).2 hknown

end

/-! ## What is freed -/

namespace Buf

/-- All buffers -/
def all : List Buf :=
  [.out, .types, .imports, .funcs, .exports, .code, .mem, .data, .glob, .start, .db, .locals, .body, .entry]

theorem mem_all (buf : Buf) : buf ∈ all := by
  cases buf <;> decide

theorem nodup_all : all.Nodup := by decide

end Buf

namespace Mem

/-- The blocks of all buffers but one -/
def others (bufs : Buf → Wbin) (buf : Buf) : List ℕ := (Buf.all.erase buf).filterMap fun b => (bufs b).block

/-- The blocks that are not freed are those of the buffers. -/
def Owned (s : Mem) : Prop := s.heap.live.Perm (Buf.all.filterMap fun b => (s.bufs b).block)

section

variable {s : Mem} {buf : Buf}

theorem others_update (bufs : Buf → Wbin) (buf : Buf) (b : Wbin) :
    others (Function.update bufs buf b) buf = others bufs buf := by
  refine List.filterMap_congr fun c hc => ?_
  rw [Function.update_of_ne ((Buf.nodup_all.mem_erase_iff.mp hc).1)]

/-- The block of one buffer, and the others -/
theorem owned_iff (s : Mem) (buf : Buf) :
    s.Owned ↔ s.heap.live.Perm ((s.bufs buf).block.toList ++ others s.bufs buf) := by
  have hperm : (Buf.all.filterMap fun b => (s.bufs b).block).Perm
      ((s.bufs buf).block.toList ++ others s.bufs buf) := by
    refine ((List.perm_cons_erase (Buf.mem_all buf)).filterMap _).trans (List.Perm.of_eq ?_)
    cases hblock : (s.bufs buf).block with
    | none => exact List.filterMap_cons_none hblock
    | some block => exact List.filterMap_cons_some hblock
  exact ⟨fun h => h.trans hperm, fun h => h.trans hperm.symm⟩

/-- A buffer has a new block, and the old one is freed. -/
theorem perm_elim_erase {live rest : List ℕ} {old : Option ℕ} (n : ℕ) (h : live.Perm (old.toList ++ rest)) :
    (old.elim (n :: live) (n :: live).erase).Perm (n :: rest) := by
  cases old with
  | none => exact h.cons n
  | some block =>
    have hswap : (n :: live).Perm (block :: n :: rest) := (h.cons n).trans (List.Perm.swap block n rest)
    exact (hswap.erase block).trans (List.Perm.of_eq (List.erase_cons_head block (n :: rest)))

theorem owned_run (hs : s.Owned) (alloc : ℕ → Option Bytes) {w : Write} {ok : Bool} {b : Wbin} {m : Allocs}
    (hrun : w.run alloc (s.bufs buf) s.heap = some (ok, b, m)) (caller : Caller) : (s.set buf b m caller).Owned := by
  rw [owned_iff _ buf] at hs ⊢
  show m.live.Perm ((Function.update s.bufs buf b buf).block.toList ++ others (Function.update s.bufs buf b) buf)
  rw [others_update, Function.update_self]
  rcases w.run_cases (s.bufs buf) s.heap with ⟨b₁, hblock, hroom⟩ | hendless | ⟨f, hblock, hasks⟩
  · rw [hroom] at hrun
    cases hrun
    rwa [hblock]
  · rw [hendless] at hrun
    cases hrun
  · rw [hasks] at hrun
    split at hrun
    · cases hrun
      exact hs
    · cases hrun
      rw [hblock]
      exact perm_elim_erase s.heap.calls hs

theorem owned_writes (hs : s.Owned) (alloc : ℕ → Option Bytes) (caller : Caller) (buf : Buf) (ws : List Write) :
    (ended (s.writes alloc caller buf ws)).Owned := by
  induction ws generalizing s with
  | nil => exact hs
  | cons w ws ih =>
    rw [writes]
    split
    · exact hs
    · rename_i ok b m hrun
      have hset := owned_run hs alloc hrun (if w.isPut then caller else .drops)
      dsimp only
      split
      · exact ih hset
      · exact hset

theorem owned_free (hs : s.Owned) (buf : Buf) : (s.free buf).Owned := by
  rw [owned_iff _ buf] at hs ⊢
  show ((s.bufs buf).block.elim s.heap.live s.heap.live.erase).Perm
    ((Function.update s.bufs buf .init buf).block.toList ++ others (Function.update s.bufs buf .init) buf)
  rw [others_update, Function.update_self]
  cases hblock : (s.bufs buf).block with
  | none => rwa [hblock] at hs
  | some block =>
    rw [hblock] at hs
    exact (hs.erase block).trans (List.Perm.of_eq (List.erase_cons_head block _))

/-- When all buffers are free nothing is left. -/
theorem live_eq_nil (hs : s.Owned) (hfree : ∀ buf, (s.bufs buf).block = none) : s.heap.live = [] := by
  have hnone : (Buf.all.filterMap fun b => (s.bufs b).block) = [] :=
    List.filterMap_eq_nil_iff.mpr fun buf _ => hfree buf
  exact List.perm_nil.mp (hnone ▸ hs)

end

end Mem

theorem block_wbSecEnd (pos : UInt32) (b : Wbin) : (wbSecEnd pos b).block = b.block := by
  unfold wbSecEnd
  dsimp only
  split <;> rfl

theorem owned_step (alloc : ℕ → Option Bytes) (op : Op) {s : Mem} (hs : s.Owned) :
    (Prog.final Prod.snd (step alloc op s)).Owned := by
  cases op with
  | write buf ws =>
    refine final_after (Mem.owned_writes hs alloc .leaves buf ws) fun ok s' hs' => ?_
    cases ok <;> exact hs'
  | body ws =>
    refine final_after (Mem.owned_writes hs alloc .body .body ws) fun ok s' hs' => ?_
    cases ok with
    | false => exact Mem.owned_free (Mem.owned_free hs' .locals) .body
    | true => exact hs'
  | init ws => exact final_after (Mem.owned_writes hs alloc .drops .glob ws) fun _ _ hs' => hs'
  | contents buf => exact hs
  | free buf => exact Mem.owned_free hs buf
  | secStart id => exact final_after (Mem.owned_writes hs alloc .drops .out _) fun _ _ hs' => hs'
  | secEnd pos =>
    rw [Mem.owned_iff _ .out] at hs ⊢
    show s.heap.live.Perm ((Function.update s.bufs .out (wbSecEnd pos (s.bufs .out)) .out).block.toList ++
      Mem.others (Function.update s.bufs .out (wbSecEnd pos (s.bufs .out))) .out)
    rw [Mem.others_update, Function.update_self, block_wbSecEnd]
    exact hs
  | exit e => exact hs

/-! ## The buffers of a field -/

/-- The buffers that are freed before the end of a field -/
def temps : List Buf := [.db, .locals, .body, .entry]

/-- Which of the buffers of a field may be in use: none where the compiler goes to `error`, and only those that are
freed before where `parse_body` fails. -/
def tidy : Prog.Domain Op Op.Resp (List Buf) where
  pre op used :=
    match op with
    | .body _ => ∀ buf ∈ used, buf = .locals ∨ buf = .body
    | .free buf => buf ≠ .out
    | .exit .error => used = []
    | .exit .leaves => False
    | _ => True
  next op used _ used' :=
    match op with
    | .write buf _ => used' = if buf ∈ temps then buf :: used else used
    | .body _ => used' = .body :: used
    | .free buf => used' = used.filter (· ≠ buf)
    | _ => used' = used

theorem mem_filter_ne {used : List Buf} {buf other : Buf} :
    other ∈ used.filter (· ≠ buf) ↔ other ∈ used ∧ other ≠ buf := by
  rw [List.mem_filter, decide_eq_true_iff]

/-- With no other buffers of a field in use than some before a part, no other ones than some are in use after it. -/
def Uses {α : Type} (T : List Buf) (m : M α) (U : List Buf) : Prop :=
  ∀ v used, used ⊆ T → (m v).Wp tidy used fun _ used' => used' ⊆ U

section

variable {α β : Type} {m : M α} {f : α → M β} {T U V : List Buf} {buf : Buf}

theorem Uses.bind (hm : Uses T m U) (hf : ∀ x, Uses U (f x) V) : Uses T (m >>= f) V :=
  fun v used hused => (hm v used hused).bind fun r used' hused' => hf r.1 r.2 used' hused'

theorem Uses.mono (hm : Uses U m V) (hT : T ⊆ U) : Uses T m V :=
  fun v used hused => hm v used (List.Subset.trans hused hT)

theorem uses_pure (x : α) : Uses T (pure x : M α) T := fun _ _ hused => hused

theorem uses_get : Uses T (get : M View) T := fun _ _ hused => hused

theorem uses_modify (f : View → View) : Uses T (modify f : M Unit) T := fun _ _ hused => hused

theorem uses_toks : Uses T toks T := fun _ _ hused => hused

theorem uses_setToks (toks : List Tok) : Uses T (setToks toks) T := fun _ _ hused => hused

theorem uses_next : Uses T next T := fun _ _ hused => hused

theorem uses_expects (type : TokType) : Uses T (expects type) T := fun _ _ hused => hused

theorem uses_matchesId (s : String) : Uses T (matchesId s) T := fun _ _ hused => hused

theorem uses_outside : Uses T (exit .outside : M α) U := fun _ _ _ => ⟨trivial, fun r => r.elim⟩

theorem uses_endless : Uses T (exit .endless : M α) U := fun _ _ _ => ⟨trivial, fun r => r.elim⟩

theorem uses_error : Uses [] (exit .error : M α) U :=
  fun _ _ hused => ⟨List.subset_nil.mp hused, fun r => r.elim⟩

theorem uses_write (hbuf : buf ∉ temps) (ws : List Write) : Uses T (write buf ws) T := by
  intro v used hused
  refine ⟨trivial, fun _ used' hnext => ?_⟩
  rw [show used' = used from hnext.trans (if_neg hbuf)]
  exact hused

theorem uses_writeTemp (hbuf : buf ∈ T) (ws : List Write) : Uses T (write buf ws) T := by
  intro v used hused
  refine ⟨trivial, fun _ used' hnext => ?_⟩
  show used' ⊆ T
  rw [show used' = if buf ∈ temps then buf :: used else used from hnext]
  split
  · exact List.cons_subset.mpr ⟨hbuf, hused⟩
  · exact hused

/-- A command that is about no buffer of a field -/
theorem uses_issue {op : Op} (hpre : ∀ used, tidy.pre op used) (hnext : ∀ used r, tidy.next op used r = (· = used)) :
    Uses T (issue op) T := by
  intro v used hused
  refine ⟨hpre used, fun r used' hr => ?_⟩
  rw [hnext] at hr
  rw [show used' = used from hr]
  exact hused

theorem uses_contents (buf : Buf) : Uses T (contents buf) T := uses_issue (fun _ => trivial) fun _ _ => rfl

theorem uses_init (ws : List Write) : Uses T (issue (.init ws)) T := uses_issue (fun _ => trivial) fun _ _ => rfl

theorem uses_free (hbuf : buf ≠ .out) (hT : ∀ b ∈ T, b = buf ∨ b ∈ U) : Uses T (free buf) U := by
  intro v used hused
  refine ⟨hbuf, fun _ used' hnext => ?_⟩
  rw [show used' = used.filter (· ≠ buf) from hnext]
  intro b hb
  obtain ⟨hmem, hne⟩ := mem_filter_ne.mp hb
  exact (hT b (hused hmem)).resolve_left hne

theorem uses_require (type : TokType) : Uses [] (require type) [] := by
  refine uses_toks.bind fun ts => ?_
  split
  · exact uses_error
  · split
    · exact (uses_setToks _).bind fun _ => uses_pure _
    · exact uses_error

theorem uses_numberTok : Uses T numberTok T := by
  refine uses_toks.bind fun ts => ?_
  split
  · exact uses_pure _
  · split
    · exact (uses_setToks _).bind fun _ => uses_pure _
    · exact uses_pure _

theorem uses_showTok (t : Option Tok) : Uses T (showTok t) T := by
  cases t with
  | none => exact uses_pure _
  | some t =>
    show Uses T (if _ then _ else _) T
    split
    · exact uses_pure _
    · exact uses_outside

theorem uses_writeUleb (hbuf : buf ∉ temps) (v : UInt32) : Uses T (writeUleb buf v) T := uses_write hbuf _

theorem uses_writeStr (hbuf : buf ∉ temps) (t : Tok) : Uses T (writeStr buf t) T := by
  refine (uses_writeUleb hbuf _).bind fun _ => ?_
  split
  · exact uses_write hbuf _
  · exact uses_outside

theorem uses_sec (id : UInt8) (ws : List Write) : Uses T (sec id ws) T := by
  have hstart : Uses T (issue (.secStart id)) T := uses_issue (fun _ => trivial) fun _ _ => rfl
  have hend : ∀ pos, Uses T (issue (.secEnd pos)) T := fun pos => uses_issue (fun _ => trivial) fun _ _ => rfl
  exact hstart.bind fun pos => (uses_write (by decide) ws).bind fun _ => hend pos

theorem uses_header (withLocals : Bool) : Uses T (header withLocals) T :=
  uses_toks.bind fun _ => uses_toks.bind fun _ => (uses_setToks _).bind fun _ => uses_pure _

theorem uses_writeType (h : Header) : Uses T (writeType h) T := by
  refine (uses_write (by decide) _).bind fun _ => ?_
  refine (uses_writeUleb (by decide) _).bind fun _ => ?_
  refine (uses_write (by decide) _).bind fun _ => ?_
  refine (uses_writeUleb (by decide) _).bind fun _ => ?_
  exact (uses_write (by decide) _).bind fun _ => uses_modify _

theorem uses_addName : Uses T addName T := by
  refine uses_get.bind fun v => ?_
  split
  · exact uses_pure _
  · split
    · refine (uses_setToks _).bind fun _ => ?_
      split
      · exact uses_modify _
      · exact uses_pure _
    · exact uses_pure _

theorem uses_importField : Uses [] importField [] := by
  refine uses_next.bind fun _ => (uses_require _).bind fun modT => (uses_require _).bind fun nameT => ?_
  refine (uses_expects _).bind fun _ => (uses_matchesId _).bind fun isFunc => ?_
  show Uses [] (if isFunc = true then _ else _) []
  split
  · refine uses_next.bind fun _ => uses_addName.bind fun _ => (uses_header _).bind fun h => ?_
    refine (uses_writeType h).bind fun _ => (uses_writeStr (by decide) _).bind fun _ => ?_
    refine (uses_writeStr (by decide) _).bind fun _ => (uses_write (by decide) _).bind fun _ => ?_
    refine uses_get.bind fun _ => (uses_writeUleb (by decide) _).bind fun _ => (uses_modify _).bind fun _ => ?_
    exact (uses_expects _).bind fun _ => uses_expects _
  · exact uses_error.bind fun _ => uses_expects _

theorem uses_memoryField : Uses [] memoryField [] :=
  uses_next.bind fun _ => uses_numberTok.bind fun _ => (uses_write (by decide) _).bind fun _ => uses_expects _

theorem uses_initExpr : Uses [] initExpr [] := by
  refine uses_get.bind fun v => ?_
  split
  · exact uses_pure _
  · exact (uses_init _).bind fun ok => uses_setToks _
  · exact (uses_showTok _).bind fun _ => uses_setToks _
  · exact uses_outside

theorem uses_globalType : Uses [] globalType [] := by
  refine uses_toks.bind fun ts => ?_
  split
  · refine uses_next.bind fun _ => (uses_matchesId _).bind fun isMut => ?_
    show Uses [] (if isMut = true then _ else _) []
    split
    · exact uses_next.bind fun _ => uses_toks.bind fun _ => (uses_setToks _).bind fun _ => uses_pure _
    · exact uses_toks.bind fun _ => (uses_setToks _).bind fun _ => uses_pure _
  · exact uses_toks.bind fun _ => (uses_setToks _).bind fun _ => uses_pure _

theorem uses_globalField : Uses [] globalField [] := by
  refine uses_next.bind fun _ => uses_toks.bind fun _ => (uses_setToks _).bind fun _ => ?_
  refine uses_globalType.bind fun r => ?_
  obtain ⟨isMut, vt⟩ := r
  cases vt with
  | none => exact uses_error
  | some vt =>
    refine (uses_write (by decide) _).bind fun _ => uses_toks.bind fun ts => ?_
    show Uses [] (if nextIs .lparen ts = true then _ else _) []
    split
    · refine uses_next.bind fun _ => uses_initExpr.bind fun _ => (uses_expects _).bind fun _ => ?_
      exact (uses_write (by decide) _).bind fun _ => (uses_modify _).bind fun _ => uses_expects _
    · exact (uses_write (by decide) _).bind fun _ => (uses_modify _).bind fun _ => uses_expects _

theorem uses_exportField : Uses [] exportField [] := by
  refine uses_next.bind fun _ => (uses_require _).bind fun en => (uses_expects _).bind fun _ => ?_
  refine (uses_matchesId _).bind fun isFunc => ?_
  show Uses [] (if isFunc = true then _ else _) []
  split
  · refine uses_next.bind fun _ => uses_get.bind fun v => uses_numberTok.bind fun fidx => ?_
    show Uses [] (if nextIs .ident v.toks = true then _ else _) []
    have hrest : Uses [] (do
        writeStr .exports en
        write .exports [.put [0x00]]
        writeUleb .exports (fidx.getD (v.nImportFuncs + v.nFuncs - 1))
        modify fun s => { s with nExports := s.nExports + 1 }
        expects .rparen
        expects .rparen) [] := by
      refine (uses_writeStr (by decide) _).bind fun _ => (uses_write (by decide) _).bind fun _ => ?_
      refine (uses_writeUleb (by decide) _).bind fun _ => (uses_modify _).bind fun _ => ?_
      exact (uses_expects _).bind fun _ => uses_expects _
    split
    · exact uses_next.bind fun _ => hrest
    · exact hrest
  · exact (uses_expects _).bind fun _ => uses_expects _

theorem uses_startField : Uses [] startField [] := by
  refine uses_next.bind fun _ => uses_numberTok.bind fun si => ?_
  cases si with
  | none => exact uses_expects _
  | some si => exact (uses_writeUleb (by decide) _).bind fun _ => uses_expects _

theorem uses_inlineExport : Uses [] inlineExport [] := by
  refine uses_toks.bind fun ts => ?_
  split
  · refine uses_next.bind fun _ => (uses_matchesId _).bind fun isExport => ?_
    show Uses [] (if isExport = true then _ else _) []
    split
    · refine uses_next.bind fun _ => uses_toks.bind fun ts => ?_
      split
      · exact uses_pure _
      · rename_i en _
        show Uses [] (if en.type = .string then _ else _) []
        split
        · refine (uses_writeStr (by decide) _).bind fun _ => (uses_write (by decide) _).bind fun _ => ?_
          refine uses_get.bind fun _ => uses_get.bind fun _ => (uses_writeUleb (by decide) _).bind fun _ => ?_
          exact (uses_modify _).bind fun _ => uses_next.bind fun _ => uses_expects _
        · exact uses_expects _
    · exact uses_expects _
  · exact uses_pure _

theorem uses_dataStrings (ts : List Tok) : Uses [.db] (dataStrings ts) [.db] := by
  induction ts with
  | nil => exact uses_setToks _
  | cons t ts ih =>
    rw [dataStrings]
    split
    · refine (uses_writeTemp (by decide) _).bind fun _ => ?_
      split
      · exact uses_outside
      · exact ih
    · exact uses_setToks _

theorem uses_dataField : Uses [] dataField [] := by
  refine uses_next.bind fun _ => (uses_expects _).bind fun _ => (uses_matchesId _).bind fun isConst => ?_
  have hrest : ∀ dataOff : Option UInt32, Uses [] (do
      expects .rparen
      dataStrings (← toks)
      let db ← contents .db
      write .data [.put [0x00], .put [0x41], .emit (wbSleb (dataOff.getD 0).toInt32), .put [0x0B]]
      write .data [.emit (wbUleb (UInt32.ofNat db.length)), .emit db]
      modify fun s => { s with nDataSegs := s.nDataSegs + 1 }
      free .db
      expects .rparen) [] := by
    intro dataOff
    refine Uses.mono (U := [.db]) ?_ (List.nil_subset _)
    refine (uses_expects _).bind fun _ => uses_toks.bind fun ts => (uses_dataStrings ts).bind fun _ => ?_
    refine (uses_contents _).bind fun db => (uses_write (by decide) _).bind fun _ => ?_
    refine (uses_write (by decide) _).bind fun _ => (uses_modify _).bind fun _ => ?_
    exact (uses_free (by decide) (by decide)).bind fun _ => uses_expects _
  show Uses [] (if isConst = true then _ else _) []
  split
  · exact uses_next.bind fun _ => uses_numberTok.bind fun dataOff => hrest dataOff
  · exact hrest none

theorem uses_bodyOf (rounds : ℕ) : Uses [.locals, .body] (bodyOf rounds) [.locals, .body] := by
  refine uses_get.bind fun v => ?_
  have hbody : ∀ ws, Uses [.locals, .body] (issue (.body ws)) [.locals, .body] := by
    intro ws v used hused
    refine ⟨fun b hb => ?_, fun _ used' hnext => ?_⟩
    · simpa using hused hb
    · rw [show used' = .body :: used from hnext]
      exact List.cons_subset.mpr ⟨by decide, hused⟩
  refine (hbody _).bind fun _ => ?_
  split
  · exact uses_setToks _
  · refine (uses_showTok _).bind fun _ => (uses_free (U := [.body]) (by decide) (by decide)).bind fun _ => ?_
    exact (uses_free (U := []) (by decide) (by decide)).bind fun _ => uses_error
  · exact uses_outside
  · exact uses_endless

theorem uses_funcField (rounds : ℕ) : Uses [] (funcField rounds) [] := by
  refine uses_next.bind fun _ => uses_toks.bind fun _ => (uses_setToks _).bind fun _ => ?_
  refine uses_inlineExport.bind fun _ => (uses_header _).bind fun h => ?_
  refine Uses.mono (U := [.locals, .body]) ?_ (List.nil_subset _)
  refine (uses_writeTemp (by decide) _).bind fun _ => (uses_writeType h).bind fun _ => ?_
  refine uses_get.bind fun _ => (uses_writeUleb (by decide) _).bind fun _ => (uses_modify _).bind fun _ => ?_
  refine (uses_contents _).bind fun locals => ?_
  have hrest : Uses [.locals, .body] (do
      bodyOf rounds
      write .body [.put [0x0B]]
      let body ← contents .body
      write .entry [.emit (wbUleb (UInt32.ofNat body.length)), .emit body]
      write .code [.emit (← contents .entry)]
      free .locals
      free .body
      free .entry
      expects .rparen) [] := by
    refine (uses_bodyOf rounds).bind fun _ => (uses_writeTemp (by decide) _).bind fun _ => ?_
    refine (uses_contents _).bind fun body => ?_
    refine Uses.mono (U := [.locals, .body, .entry]) ?_ (by decide)
    refine (uses_writeTemp (by decide) _).bind fun _ => (uses_contents _).bind fun entry => ?_
    refine (uses_write (by decide) _).bind fun _ => ?_
    refine (uses_free (U := [.body, .entry]) (by decide) (by decide)).bind fun _ => ?_
    refine (uses_free (U := [.entry]) (by decide) (by decide)).bind fun _ => ?_
    exact (uses_free (U := []) (by decide) (by decide)).bind fun _ => uses_expects _
  show Uses _ (if locals ≠ [] then _ else _) _
  split
  · exact (uses_writeTemp (by decide) _).bind fun _ => hrest
  · exact (uses_writeTemp (by decide) _).bind fun _ => hrest

theorem uses_field (rounds : ℕ) : Uses [] (field rounds) [] := by
  refine (uses_matchesId _).bind fun isImport => ?_
  split
  · exact uses_importField
  refine (uses_matchesId _).bind fun isMemory => ?_
  split
  · exact uses_memoryField
  refine (uses_matchesId _).bind fun isData => ?_
  split
  · exact uses_dataField
  refine (uses_matchesId _).bind fun isGlobal => ?_
  split
  · exact uses_globalField
  refine (uses_matchesId _).bind fun isFunc => ?_
  split
  · exact uses_funcField rounds
  refine (uses_matchesId _).bind fun isExport => ?_
  split
  · exact uses_exportField
  refine (uses_matchesId _).bind fun isStart => ?_
  split
  · exact uses_startField
  · exact uses_toks.bind fun _ => uses_setToks _

theorem uses_fields (rounds n : ℕ) : Uses [] (fields rounds n) [] := by
  induction n with
  | zero => exact uses_endless
  | succ n ih =>
    refine uses_toks.bind fun ts => ?_
    split
    · exact uses_pure _
    · split
      · exact uses_pure _
      · split
        · exact uses_error
        · exact (uses_setToks _).bind fun _ => (uses_field rounds).bind fun _ => ih

theorem uses_sectionIf (id : UInt8) (there : Bool) (n : UInt32) (buf : Buf) : Uses T (sectionIf id there n buf) T := by
  unfold sectionIf
  split
  · exact (uses_contents _).bind fun _ => uses_sec _ _
  · exact uses_pure _

theorem uses_sections : Uses [] sections [] := by
  refine uses_get.bind fun v => (uses_contents _).bind fun types => (uses_sectionIf _ _ _ _).bind fun _ => ?_
  refine (uses_sectionIf _ _ _ _).bind fun _ => (uses_sectionIf _ _ _ _).bind fun _ => ?_
  refine (uses_contents _).bind fun mem => (uses_sectionIf _ _ _ _).bind fun _ => ?_
  refine (uses_sectionIf _ _ _ _).bind fun _ => (uses_sectionIf _ _ _ _).bind fun _ => ?_
  refine (uses_contents _).bind fun start => ?_
  have hfrees : ∀ bufs : List Buf, .out ∉ bufs → Uses [] (bufs.forM free) [] := by
    intro bufs
    induction bufs with
    | nil => exact fun _ => uses_pure _
    | cons buf bufs ih =>
      intro hout
      have hne : buf ≠ .out := fun heq => hout (heq ▸ List.mem_cons_self)
      exact (uses_free (T := []) hne nofun).bind fun _ => ih fun hmem => hout (List.mem_cons_of_mem _ hmem)
  show Uses [] (if start ≠ [] then _ else _) []
  split
  · refine (uses_sec _ _).bind fun _ => (uses_sectionIf _ _ _ _).bind fun _ => ?_
    exact (uses_sectionIf _ _ _ _).bind fun _ => hfrees _ (by decide)
  · exact (uses_sectionIf _ _ _ _).bind fun _ => (uses_sectionIf _ _ _ _).bind fun _ => hfrees _ (by decide)

theorem uses_compileModule (rounds : ℕ) : Uses [] (compileModule rounds) [] := by
  refine (uses_write (by decide) _).bind fun _ => uses_toks.bind fun ts => ?_
  split
  · refine uses_next.bind fun _ => (uses_matchesId _).bind fun isModule => ?_
    split
    · refine uses_next.bind fun _ => (uses_fields rounds rounds).bind fun _ => ?_
      exact (uses_expects _).bind fun _ => uses_sections
    · exact uses_error
  · exact uses_error

end

/-! ## What is left in use -/

section

variable {alloc : ℕ → Option Bytes} {s : Mem}

theorem bufs_writes (alloc : ℕ → Option Bytes) (caller : Caller) {buf other : Buf} (hne : other ≠ buf)
    (ws : List Write) (s : Mem) : (Mem.ended (s.writes alloc caller buf ws)).bufs other = s.bufs other := by
  induction ws generalizing s with
  | nil => rfl
  | cons w ws ih =>
    rw [Mem.writes]
    split
    · rfl
    · dsimp only
      split
      · rw [ih]
        exact Function.update_of_ne hne _ _
      · exact Function.update_of_ne hne _ _

/-- What has a block keeps one. -/
theorem block_writes (alloc : ℕ → Option Bytes) (caller : Caller) (buf : Buf) {other : Buf} (ws : List Write)
    (hs : (s.bufs other).block ≠ none) :
    ((Mem.ended (s.writes alloc caller buf ws)).bufs other).block ≠ none := by
  induction ws generalizing s with
  | nil => exact hs
  | cons w ws ih =>
    have hset : ∀ ok b m caller, w.run alloc (s.bufs buf) s.heap = some (ok, b, m) →
        ((s.set buf b m caller).bufs other).block ≠ none := by
      intro ok b m caller hrun
      show (Function.update s.bufs buf b other).block ≠ none
      rcases eq_or_ne other buf with rfl | hne
      · rw [Function.update_self]
        rcases w.run_cases (s.bufs other) s.heap with ⟨b₁, hblock, hroom⟩ | hendless | ⟨f, hblock, hasks⟩
        · rw [hroom] at hrun
          cases hrun
          rwa [hblock]
        · rw [hendless] at hrun
          cases hrun
        · rw [hasks] at hrun
          split at hrun
          · cases hrun
            exact hs
          · cases hrun
            rw [hblock]
            exact Option.some_ne_none _
      · rwa [Function.update_of_ne hne]
    rw [Mem.writes]
    split
    · exact hs
    · rename_i ok b m hrun
      dsimp only
      split
      · exact ih (hset _ _ _ _ hrun)
      · exact hset _ _ _ _ hrun

/-- If no allocation fails no write does. -/
theorem writes_never (halloc : ∀ k, alloc k ≠ none) (caller : Caller) (buf : Buf) (ws : List Write) (s : Mem)
    {ok : Bool} {s' : Mem} (h : s.writes alloc caller buf ws = .ok (ok, s')) : ok = true := by
  induction ws generalizing s with
  | nil =>
    cases h
    rfl
  | cons w ws ih =>
    rw [Mem.writes] at h
    rcases w.run_cases (s.bufs buf) s.heap with ⟨b₁, -, hroom⟩ | hendless | ⟨f, -, hasks⟩
    · rw [hroom] at h
      exact ih _ h
    · rw [hendless] at h
      cases h
    · obtain ⟨p, hp⟩ := Option.ne_none_iff_exists'.mp (halloc s.heap.calls)
      rw [hasks, hp] at h
      exact ih _ h

/-- No other buffers of a field have a block than those that may be in use. -/
def Freed (used : List Buf) (s : Mem) : Prop := ∀ buf ∈ temps, buf ∉ used → (s.bufs buf).block = none

theorem freed_writes (alloc : ℕ → Option Bytes) {used used' : List Buf} (hs : Freed used s) (buf : Buf)
    (caller : Caller) (ws : List Write) (hused : used ⊆ used') (hbuf : buf ∈ temps → buf ∈ used') :
    Freed used' (Mem.ended (s.writes alloc caller buf ws)) := by
  intro other hother hnot
  have hne : other ≠ buf := by
    rintro rfl
    exact hnot (hbuf hother)
  rw [bufs_writes alloc caller hne ws s]
  exact hs other hother fun hmem => hnot (hused hmem)

theorem freed_free {used : List Buf} (hs : Freed used s) (buf : Buf) :
    Freed (used.filter (· ≠ buf)) (s.free buf) := by
  intro other hother hnot
  show (Function.update s.bufs buf .init other).block = none
  rcases eq_or_ne other buf with rfl | hne
  · rw [Function.update_self]
    rfl
  · rw [Function.update_of_ne hne]
    exact hs other hother fun hmem => hnot (mem_filter_ne.mpr ⟨hmem, hne⟩)

/-- A tidy command goes to `error` only when the buffers of a field are freed. -/
theorem step_freed (alloc : ℕ → Option Bytes) (op : Op) (used : List Buf) (s : Mem) (hs : Freed used s)
    (hpre : tidy.pre op used) :
    Prog.Ends (fun e => e.1 = .error → Freed [] e.2) (fun r s' => ∃ used', tidy.next op used r used' ∧ Freed used' s')
      (step alloc op s) := by
  cases op with
  | write buf ws =>
    have hended : Freed (if buf ∈ temps then buf :: used else used) (Mem.ended (s.writes alloc .leaves buf ws)) :=
      freed_writes alloc hs buf .leaves ws (by split <;> simp) (fun hbuf => by simp [hbuf])
    refine ends_after hended (fun _ _ h => nomatch h) fun ok s' hs' => ?_
    cases ok with
    | false => exact fun h => nomatch h
    | true => exact ⟨_, rfl, hs'⟩
  | body ws =>
    have hended := freed_writes alloc hs .body .body ws (List.subset_cons_self .body used)
      fun _ => List.mem_cons_self
    refine ends_after hended (fun _ _ h => nomatch h) fun ok s' hs' => ?_
    cases ok with
    | false =>
      intro _ other hother _
      refine freed_free (freed_free hs' .locals) .body other hother fun hmem => ?_
      obtain ⟨hmem, hbody⟩ := mem_filter_ne.mp hmem
      obtain ⟨hmem, hlocals⟩ := mem_filter_ne.mp hmem
      exact (hpre other ((List.mem_cons.mp hmem).resolve_left hbody)).elim hlocals hbody
    | true => exact ⟨_, rfl, hs'⟩
  | init ws =>
    have hended := freed_writes alloc hs .glob .drops ws (List.Subset.refl used)
      fun hglob => absurd hglob (by decide)
    exact ends_after hended (fun _ _ h => nomatch h) fun ok s' hs' => ⟨used, rfl, hs'⟩
  | contents buf => exact ⟨used, rfl, hs⟩
  | free buf => exact ⟨_, rfl, freed_free hs buf⟩
  | secStart id =>
    have hended := freed_writes alloc hs .out .drops (.put [id] :: List.replicate 5 (.put [0]))
      (List.Subset.refl used) fun hout => absurd hout (by decide)
    exact ends_after hended (fun _ _ h => nomatch h) fun ok s' hs' => ⟨used, rfl, hs'⟩
  | secEnd pos =>
    refine ⟨used, rfl, fun other hother hnot => ?_⟩
    have hne : other ≠ .out := by
      rintro rfl
      exact absurd hother (by decide)
    show (Function.update s.bufs .out _ other).block = none
    rw [Function.update_of_ne hne]
    exact hs other hother hnot
  | exit e =>
    intro herror
    obtain rfl : e = .error := herror
    rw [show used = [] from hpre] at hs
    exact hs

/-- A tidy command does not leave the compiler if no allocation fails. -/
theorem step_never (halloc : ∀ k, alloc k ≠ none) (op : Op) (used : List Buf) (s : Mem) (_ : True)
    (hpre : tidy.pre op used) :
    Prog.Ends (fun e => e.1 ≠ .leaves) (fun r _ => ∃ used', tidy.next op used r used' ∧ True) (step alloc op s) := by
  cases op with
  | write buf ws =>
    rw [step]
    cases hws : s.writes alloc .leaves buf ws with
    | error s' => exact fun h => Exit.noConfusion h
    | ok r =>
      obtain ⟨ok, s'⟩ := r
      obtain rfl := writes_never halloc _ _ _ _ hws
      exact ⟨_, rfl, trivial⟩
  | body ws =>
    rw [step]
    cases hws : s.writes alloc .body .body ws with
    | error s' => exact fun h => Exit.noConfusion h
    | ok r =>
      obtain ⟨ok, s'⟩ := r
      obtain rfl := writes_never halloc _ _ _ _ hws
      exact ⟨_, rfl, trivial⟩
  | init ws =>
    exact ends_after (P := fun _ => True) trivial (fun _ _ h => Exit.noConfusion h) fun ok s' _ => ⟨used, rfl, trivial⟩
  | contents buf => exact ⟨used, rfl, trivial⟩
  | free buf => exact ⟨_, rfl, trivial⟩
  | secStart id =>
    exact ends_after (P := fun _ => True) trivial (fun _ _ h => Exit.noConfusion h) fun ok s' _ => ⟨used, rfl, trivial⟩
  | secEnd pos => exact ⟨used, rfl, trivial⟩
  | exit e =>
    rintro rfl
    exact hpre

/-- A tidy command does not free the binary. -/
theorem step_out (alloc : ℕ → Option Bytes) (op : Op) (used : List Buf) (s : Mem) (hs : (s.bufs .out).block ≠ none)
    (hpre : tidy.pre op used) :
    Prog.Ends (fun e => (e.2.bufs .out).block ≠ none)
      (fun r s' => ∃ used', tidy.next op used r used' ∧ (s'.bufs .out).block ≠ none) (step alloc op s) := by
  cases op with
  | write buf ws =>
    refine ends_after (block_writes alloc .leaves buf ws hs) (fun _ h => h) fun ok s' hs' => ?_
    cases ok with
    | false => exact hs'
    | true => exact ⟨_, rfl, hs'⟩
  | body ws =>
    refine ends_after (block_writes alloc .body .body ws hs) (fun _ h => h) fun ok s' hs' => ?_
    cases ok with
    | false => exact hs'
    | true => exact ⟨_, rfl, hs'⟩
  | init ws =>
    exact ends_after (block_writes alloc .drops .glob ws hs) (fun _ h => h) fun ok s' hs' => ⟨used, rfl, hs'⟩
  | contents buf => exact ⟨used, rfl, hs⟩
  | free buf =>
    refine ⟨_, rfl, ?_⟩
    show (Function.update s.bufs buf .init .out).block ≠ none
    rwa [Function.update_of_ne (Ne.symm hpre)]
  | secStart id =>
    exact ends_after (block_writes alloc .drops .out _ hs) (fun _ h => h) fun ok s' hs' => ⟨used, rfl, hs'⟩
  | secEnd pos =>
    refine ⟨used, rfl, ?_⟩
    show (Function.update s.bufs .out (wbSecEnd pos (s.bufs .out)) .out).block ≠ none
    rw [Function.update_self, block_wbSecEnd]
    exact hs
  | exit e => exact hs

end

/-! ## When memory runs out -/

/-- The heap where the same allocations give the same, and none fails -/
def neverFails (alloc : ℕ → Option Bytes) : ℕ → Option Bytes := fun k => some ((alloc k).getD Bytes.zeros)

/-- Who makes the calls of `kmalloc` for a text if none fails -/
def callersOf (alloc : ℕ → Option Bytes) (junk : ℕ → Tok) (rounds : ℕ) (wat : List UInt8) : List Caller :=
  match watLex junk rounds wat with
  | .tokens ts =>
    (Prog.final Prod.snd ((compileModule rounds (.start ts)).exec (step (neverFails alloc)) Mem.init)).callers
  | _ => []

/-- The allocations fail first at a call. -/
def FailsFirst (alloc : ℕ → Option Bytes) (k : ℕ) : Prop := alloc k = none ∧ ∀ j < k, alloc j ≠ none

/-- The compiler fails and has freed everything, or it comes to what it would come to if no allocation failed. -/
def Unharmed (r ref : Result) : Prop :=
  match r with
  | .returns wasm _ => ∃ heap, ref = .returns wasm heap
  | .fails heap => heap.live = []
  | .outside => ref = .outside
  | .endless => ref = .endless

section

variable {alloc : ℕ → Option Bytes} {k : ℕ}

theorem FailsFirst.firstFailure (h : FailsFirst alloc k) : Mem.FirstFailure alloc (neverFails alloc) k where
  fails := h.1
  before j hj := by
    obtain ⟨p, hp⟩ := Option.ne_none_iff_exists'.mp (h.2 j hj)
    rw [neverFails, hp]
    rfl
  never _ := Option.some_ne_none _

theorem neverFails_eq (h : ∀ k, alloc k ≠ none) : neverFails alloc = alloc := by
  funext k
  obtain ⟨p, hp⟩ := Option.ne_none_iff_exists'.mp (h k)
  rw [neverFails, hp]
  rfl

/-- Some allocation is the first one that fails, if one does. -/
theorem exists_failsFirst (h : ¬ ∀ k, alloc k ≠ none) : ∃ k, FailsFirst alloc k := by
  classical
  have hex : ∃ k, alloc k = none := by
    by_contra hnone
    exact h fun k hk => hnone ⟨k, hk⟩
  exact ⟨Nat.find hex, Nat.find_spec hex, fun j hj => Nat.find_min hex hj⟩

theorem owned_init : Mem.init.Owned := List.Perm.refl _

theorem owned_foldl_free (bufs : List Buf) {s : Mem} (hs : s.Owned) : (bufs.foldl Mem.free s).Owned := by
  induction bufs generalizing s with
  | nil => exact hs
  | cons buf bufs ih => exact ih (Mem.owned_free hs buf)

theorem block_foldl_free (bufs : List Buf) (s : Mem) (buf : Buf) (h : buf ∈ bufs ∨ (s.bufs buf).block = none) :
    ((bufs.foldl Mem.free s).bufs buf).block = none := by
  induction bufs generalizing s with
  | nil => exact h.resolve_left List.not_mem_nil
  | cons b bufs ih =>
    refine ih (s.free b) ?_
    rcases eq_or_ne buf b with rfl | hne
    · right
      show (Function.update s.bufs buf .init buf).block = none
      rw [Function.update_self]
      rfl
    · refine h.imp (fun hmem => (List.mem_cons.mp hmem).resolve_left hne) fun hnone => ?_
      show (Function.update s.bufs b .init buf).block = none
      rwa [Function.update_of_ne hne]

/-- At `error` everything is freed. -/
theorem live_error {s : Mem} (hs : s.Owned) (hfreed : Freed [] s) :
    ((Buf.out :: sectionBufs).foldl Mem.free s).heap.live = [] := by
  refine Mem.live_eq_nil (owned_foldl_free _ hs) fun buf => block_foldl_free _ _ _ ?_
  have hall : ∀ buf : Buf, buf ∈ Buf.out :: sectionBufs ∨ buf ∈ temps := by
    intro buf
    cases buf <;> decide
  exact (hall buf).imp_right fun htemp => hfreed buf htemp List.not_mem_nil

theorem exec_owned {α : Type} (alloc : ℕ → Option Bytes) (p : Prog Op Op.Resp α) :
    (Prog.final Prod.snd (p.exec (step alloc) Mem.init)).Owned :=
  Prog.exec_invariant (fun op _ hs => owned_step alloc op hs) p owned_init

theorem exec_good {α : Type} (alloc : ℕ → Option Bytes) (p : Prog Op Op.Resp α) :
    (Prog.final Prod.snd (p.exec (step alloc) Mem.init)).Good :=
  Prog.exec_invariant (fun op s hs => (later_step alloc op s).good hs) p rfl

/-- The text of `wat2wasm_compile` is tidy. -/
theorem wp_compileModule (rounds : ℕ) (v : View) : (compileModule rounds v).Wp tidy [] fun _ used => used ⊆ [] :=
  uses_compileModule rounds v [] (List.Subset.refl [])

theorem unharmed_of_error {rounds : ℕ} {v : View} {e : Exit × Mem} {ref : Result}
    (he : (compileModule rounds v).exec (step alloc) Mem.init = .error e) (herror : e.1 = .error) :
    Unharmed (.of (.error e)) ref := by
  have howned := exec_owned alloc (compileModule rounds v)
  have hfreed := (wp_compileModule rounds v).exec (step_freed alloc) (s := Mem.init) fun _ _ _ => rfl
  rw [he] at howned hfreed
  obtain ⟨exit, s⟩ := e
  obtain rfl : exit = .error := herror
  exact live_error howned (hfreed rfl)

/-- Without failures the compiler comes to what it comes to, and if it fails it has freed everything. -/
theorem unharmed_self (halloc : ∀ k, alloc k ≠ none) (rounds : ℕ) (v : View) :
    Unharmed (.of ((compileModule rounds v).exec (step alloc) Mem.init))
      (.of ((compileModule rounds v).exec (step alloc) Mem.init)) := by
  have hnever := (wp_compileModule rounds v).exec (γ := fun _ _ => True) (step_never halloc) (s := Mem.init) trivial
  cases hrun : (compileModule rounds v).exec (step alloc) Mem.init with
  | ok r => exact ⟨_, rfl⟩
  | error e =>
    rw [hrun] at hnever
    obtain ⟨exit, s⟩ := e
    cases exit with
    | leaves => exact absurd rfl hnever
    | error => exact unharmed_of_error hrun rfl
    | outside => rfl
    | endless => rfl

/-- The first byte needs a block. -/
theorem run_first : ∃ f : Bytes → Wbin, (∀ p, (f p).block = some 0) ∧
    ∀ alloc, (Write.put [0x00]).run alloc .init ⟨0, []⟩ = some (match alloc 0 with
      | none => (false, .init, ⟨1, []⟩)
      | some p => (true, f p, ⟨1, [0]⟩)) := by
  have hnone : (Write.put [0x00]).run (fun _ => none) .init ⟨0, []⟩ = some (false, .init, ⟨1, []⟩) := rfl
  rcases (Write.put [0x00]).run_cases .init ⟨0, []⟩ with ⟨b, -, hroom⟩ | hendless | hasks
  · cases hnone.symm.trans (hroom _)
  · cases hnone.symm.trans (hendless _)
  · exact hasks

/-- The text begins with the bytes that every binary begins with. -/
theorem compileModule_eq (rounds : ℕ) (v : View) :
    ∃ ws k, compileModule rounds v = .call (.write .out (.put [0x00] :: ws)) k :=
  ⟨_, _, rfl⟩

/-- If the first call fails nothing is in use. -/
theorem exec_first_fails (rounds : ℕ) (v : View) (h : alloc 0 = none) :
    ∃ s, (compileModule rounds v).exec (step alloc) Mem.init = .error (.leaves, s) ∧ s.heap.live = [] := by
  obtain ⟨f, -, hf⟩ := run_first
  obtain ⟨ws, k, heq⟩ := compileModule_eq rounds v
  have hrun := hf alloc
  rw [h] at hrun
  have hwrites : Mem.init.writes alloc .leaves .out (.put [0x00] :: ws) =
      .ok (false, Mem.init.set .out .init ⟨1, []⟩ .leaves) := by
    rw [Mem.writes, show (Write.put [0x00]).run alloc (Mem.init.bufs .out) Mem.init.heap = _ from hrun]
    rfl
  refine ⟨Mem.init.set .out .init ⟨1, []⟩ .leaves, ?_, rfl⟩
  rw [heq]
  refine Prog.exec_of_error ?_
  rw [step, hwrites]
  rfl

/-- If the first call succeeds, the binary has a block wherever the compiler stops. -/
theorem exec_first_succeeds (rounds : ℕ) (v : View) (h : alloc 0 ≠ none) {e : Exit × Mem}
    (he : (compileModule rounds v).exec (step alloc) Mem.init = .error e) : (e.2.bufs .out).block ≠ none := by
  obtain ⟨f, hblock, hf⟩ := run_first
  obtain ⟨p, hp⟩ := Option.ne_none_iff_exists'.mp h
  obtain ⟨ws, k, heq⟩ := compileModule_eq rounds v
  have hrun := hf alloc
  rw [hp] at hrun
  have hwrites : Mem.init.writes alloc .leaves .out (.put [0x00] :: ws) =
      (Mem.init.set .out (f p) ⟨1, [0]⟩ .leaves).writes alloc .leaves .out ws := by
    rw [Mem.writes, show (Write.put [0x00]).run alloc (Mem.init.bufs .out) Mem.init.heap = _ from hrun]
    rfl
  have hfirst : ((Mem.init.set .out (f p) ⟨1, [0]⟩ .leaves).bufs .out).block ≠ none := by
    show (Function.update Mem.init.bufs .out (f p) .out).block ≠ none
    rw [Function.update_self, hblock]
    exact Option.some_ne_none _
  have hwp := wp_compileModule rounds v
  have hended := block_writes alloc .leaves .out ws hfirst
  rw [heq] at he hwp
  have hstep : step alloc (.write .out (.put [0x00] :: ws)) Mem.init =
      after ((Mem.init.set .out (f p) ⟨1, [0]⟩ .leaves).writes alloc .leaves .out ws) fun ok s =>
        if ok then .ok ((), s) else .error (.leaves, s) := by
    rw [step, hwrites]
    rfl
  rcases hws : (Mem.init.set .out (f p) ⟨1, [0]⟩ .leaves).writes alloc .leaves .out ws with s | ⟨_ | _, s⟩
  · rw [hws] at hstep hended
    cases (Prog.exec_of_error hstep).symm.trans he
    exact hended
  · rw [hws] at hstep hended
    cases (Prog.exec_of_error hstep).symm.trans he
    exact hended
  · rw [hws] at hstep hended
    rw [Prog.exec_of_ok hstep] at he
    have hrest := (hwp.2 () [] rfl).exec (step_out alloc) (s := s) hended
    rw [he] at hrest
    exact hrest

end

theorem wasm_of_unharmed {alloc : ℕ → Option Bytes} {junk : ℕ → Tok} {rounds : ℕ} {wat wasm : List UInt8}
    (h : Unharmed (wat2wasmCompile alloc junk rounds wat) (wat2wasmCompile (neverFails alloc) junk rounds wat))
    (hwasm : (wat2wasmCompile alloc junk rounds wat).wasm = some wasm) :
    (wat2wasmCompile (neverFails alloc) junk rounds wat).wasm = some wasm := by
  cases hrun : wat2wasmCompile alloc junk rounds wat with
  | returns wasm' heap =>
    rw [hrun] at h hwasm
    obtain ⟨heap', href⟩ := h
    rw [href]
    exact hwasm
  | fails heap =>
    rw [hrun] at hwasm
    cases hwasm
  | outside =>
    rw [hrun] at hwasm
    cases hwasm
  | endless =>
    rw [hrun] at hwasm
    cases hwasm

/-- Every allocation but the fourth is answered. -/
def lacksFourth (k : ℕ) : Option Bytes :=
  if k = 3 then none else some Bytes.zeros

/-- A text that is fine -/
def dropsFive : List UInt8 := word "(module (func i32.const 5 drop))"

theorem wasm_lacksFourth :
    (wat2wasmCompile lacksFourth (fun _ => ⟨.eof, [], 0, 0⟩) 40 dropsFive).wasm =
      some [0, 97, 115, 109, 1, 0, 0, 0, 1, 4, 1, 96, 0, 0, 3, 2, 1, 0, 10, 6, 1, 4, 65, 5, 26, 11] := by
  decide +kernel

theorem wasm_dropsFive :
    (wat2wasmCompile (neverFails lacksFourth) (fun _ => ⟨.eof, [], 0, 0⟩) 40 dropsFive).wasm =
      some [0, 97, 115, 109, 1, 0, 0, 0, 1, 4, 1, 96, 0, 0, 3, 2, 1, 0, 10, 7, 1, 5, 0, 65, 5, 26, 11] := by
  decide +kernel

end Wat

end Sandflea
