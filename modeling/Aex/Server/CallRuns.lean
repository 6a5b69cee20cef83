import Aex.Lib.Threads
import Aex.Server.CallSteps
import Aex.Server.TransferSessions

/-!
# Interleaved calls

Three things calls in progress can do to each other: creates that overlap pass
the cap on sessions, a connection whose `READY` cannot be written stays counted,
and a prepare that overlaps a disconnect leaves its plan behind.  Each result
says which runs are free of that.
-/

namespace Aex

open Lts TransferRegistry Transfers

namespace Server

variable {π : Type} {limits : Limits} {s t : Server π}

/-! ## The cap on sessions -/

def Call.isCreate : Call → Bool
  | .create .. => true
  | _ => false

/-- The creates that found room and have yet to use it. -/
def creating (s : Server π) : Nat := s.calls.countP Call.isCreate

/-- A create that finds room finds it beyond what others have yet to take. -/
def Reserved (limits : Limits) (s : Server π) : Event π → Prop
  | .create .. => s.sessions.len < limits.maxSessions → s.sessions.len + s.creating < limits.maxSessions
  | _ => True

theorem creating_spawn (s : Server π) (call : Call) :
    (s.spawn call).creating = s.creating + call.isCreate.toNat := Threads.countP_concat _ _

theorem creating_finish {i : Nat} {call : Call} (h : s.calls[i]? = some call) :
    (s.finish i).creating + call.isCreate.toNat = s.creating := Threads.countP_eraseIdx h _

theorem creating_become {i : Nat} {call next : Call} (h : s.calls[i]? = some call) :
    (s.become i next).creating + call.isCreate.toNat = s.creating + next.isCreate.toNat :=
  Threads.countP_set h _ _

theorem len_sweepExpiredAt_le (limits : Limits) (r : SessionRegistry) (nowMs : Nat) :
    (r.sweepExpiredAt limits nowMs).len ≤ r.len := Table.length_keys_retain_le _ _

theorem len_erase_le (r : SessionRegistry) (id : SessionId) : (r.erase id).len ≤ r.len :=
  Table.length_keys_erase_le _ _

/-- Sessions and creates that have yet to store theirs. -/
def crowd (s : Server π) : Nat := s.sessions.len + s.creating

theorem crowd_act {a : Event π} (hreserved : Reserved limits s a) (h : Acts limits s a t)
    (hs : s.crowd ≤ limits.maxSessions) : t.crowd ≤ limits.maxSessions := by
  -- Only a create that is let in makes the crowd larger.
  have hle : ∀ {t : Server π}, t.sessions.len ≤ s.sessions.len → t.creating ≤ s.creating →
      t.crowd ≤ limits.maxSessions := fun hlen hcreating =>
    (Nat.add_le_add hlen hcreating).trans hs
  cases h with
  | refused => exact hs
  | reseen a h => exact hle (by simp only [SessionRegistry.len, h.sessions, le_refl]) le_rfl
  | room clientName desiredStreams nowMs hroom =>
      have hfree := hreserved hroom
      rw [crowd, creating_spawn]
      exact hfree
  | expired => exact hle le_rfl (creating_spawn s _).le
  | got purpose id nowMs hlookup h hcall =>
      refine hle (by simp only [SessionRegistry.len, spawn, h.sessions, le_refl]) ?_
      rw [creating_spawn]
      rcases hcall with rfl | rfl | ⟨token, rfl⟩ <;> exact le_rfl
  | expiredPlan => exact hle le_rfl (creating_spawn s _).le
  | plansTouched => exact hs
  | swept nowMs => exact hle (len_sweepExpiredAt_le limits s.sessions nowMs) (creating_spawn _ _).le
  | asked => exact hs
  | notAdmitted m hcall => exact hle le_rfl (Nat.le.intro (creating_finish hcall))
  | @admitted i _ _ _ hcall id _ r session _ hsessions =>
      have hlen : r.len ≤ s.sessions.len + 1 := by
        rw [SessionRegistry.len, hsessions]
        exact Table.length_keys_insert_le id session s.sessions.sessions
      have hcreating : (s.finish i).creating + 1 = s.creating := creating_finish hcall
      calc r.len + (s.finish i).creating
          ≤ s.sessions.len + 1 + (s.finish i).creating := Nat.add_le_add_right hlen _
        _ = s.sessions.len + s.creating := by rw [← hcreating, Nat.add_right_comm, Nat.add_assoc]
        _ ≤ limits.maxSessions := hs
  | tookOut hcall => exact hle (len_erase_le _ _) (Nat.le.intro (creating_finish hcall))
  | gaveUp hcall => exact hle le_rfl (Nat.le.intro (creating_finish hcall))
  | inserted hcall => exact hle le_rfl (Nat.le.intro (creating_finish hcall))
  | disconnected hcall =>
      exact hle (len_erase_le _ _) (Nat.le.intro (creating_become hcall))
  | plansDropped hcall => exact hle le_rfl (Nat.le.intro (creating_finish hcall))
  | planDropped hcall => exact hle le_rfl (Nat.le.intro (creating_finish hcall))
  | locked hcall => exact hle le_rfl (Nat.le.intro (creating_become hcall))
  | sweptPlans hcall => exact hle le_rfl (Nat.le.intro (creating_finish hcall))
  | notHeard hcall => exact hle le_rfl (Nat.le.intro (creating_finish hcall))
  | heard hcall hroom hsessions =>
      refine hle ?_ (Nat.le.intro (creating_become hcall))
      simp only [SessionRegistry.len, become, hsessions, le_refl]
  | greeted hcall => exact hle le_rfl (Nat.le.intro (creating_become hcall))
  | notGreeted hcall => exact hle le_rfl (Nat.le.intro (creating_finish hcall))
  | served hcall => exact hle le_rfl (Nat.le.intro (creating_finish hcall))

/-- With a place kept for every create that found room, there are never more
sessions than the cap. -/
theorem sessions_capped (config : ValidConfig) (s : Server π)
    (h : (system π config.limits).ReachableWhere (Reserved config.limits) s) :
    s.sessions.len ≤ config.limits.maxSessions := by
  have hinv : (system π config.limits).Inductive (Reserved config.limits)
      fun s => s.crowd ≤ config.limits.maxSessions :=
    { init := by
        rintro s rfl
        exact Nat.zero_le _
      step := fun hs hreserved hstep => crowd_act hreserved (acts_step hstep) hs }
  exact (Nat.le_add_right _ _).trans (hinv.holds h)

/-- Room for one session. -/
def oneSession : ValidConfig := ⟨{ limits := { maxSessions := 1 } }, rfl⟩

theorem sessions_capped_one : ∃ s : Server Unit,
    [.create "a" 0 0, .move 0 (.enlist (some (sessionA, sessionA)))].foldlM
      (step oneSession.limits) new = some s ∧ s.sessions.len ≤ 1 :=
  ⟨_, rfl, sessions_capped oneSession _
    (.snoc (.move 0 (.enlist (some (sessionA, sessionA))))
      (.snoc (.create "a" 0 0) .start (fun _ => by decide) rfl) trivial rfl)⟩

/-- Two creates find the same place free, and both take it. -/
theorem two_creates_one_place : ¬ ∀ (config : ValidConfig) (s : Server Unit),
    (system Unit config.limits).Reachable s → s.sessions.len ≤ config.limits.maxSessions := by
  intro h
  have hrun := h oneSession _ (System.reachable_of_run [.create "a" 0 0, .create "a" 0 0,
    .move 0 (.enlist (some (sessionA, sessionA))), .move 0 (.enlist (some (sessionB, sessionB)))] rfl)
  revert hrun
  decide

/-! ## Data connections counted -/

/-- The session a thread holds. -/
def Call.session? : Call → Option ServerSession
  | .prepare session | .disconnect session | .hello session _ | .greet session | .serve session =>
      some session
  | _ => none

/-- Sessions are told apart by their cells, and threads and the table hold
sessions that were created. -/
structure Known (s : Server π) : Prop where
  below : ∀ x ∈ s.created, x.cell < s.sessions.cells
  cell_inj : ∀ x ∈ s.created, ∀ y ∈ s.created, x.cell = y.cell → x = y
  granted : ∀ x ∈ s.created, x.grantedStreams < Word.size 32
  table : ∀ key x, s.sessions.sessions.lookup key = some x → x ∈ s.created
  held : ∀ call ∈ s.calls, ∀ x, call.session? = some x → x ∈ s.created

/-- Events that create no session keep `Known` when the threads and the table
hold nothing new. -/
theorem Known.mono (h : s.Known) (hcreated : t.created = s.created)
    (hcells : t.sessions.cells = s.sessions.cells)
    (htable : ∀ key x, t.sessions.sessions.lookup key = some x →
      s.sessions.sessions.lookup key = some x)
    (hheld : ∀ call ∈ t.calls, ∀ x, call.session? = some x → x ∈ s.created) : t.Known where
  below := by
    rw [hcreated, hcells]
    exact h.below
  cell_inj := hcreated ▸ h.cell_inj
  granted := hcreated ▸ h.granted
  table key x hx := hcreated ▸ h.table key x (htable key x hx)
  held := hcreated ▸ hheld

theorem lookup_erase_of {r : SessionRegistry} {id key : SessionId} {x : ServerSession}
    (h : (r.erase id).sessions.lookup key = some x) : r.sessions.lookup key = some x := by
  by_cases hkey : key = id
  · rw [SessionRegistry.erase, hkey, AList.lookup_erase] at h
    cases h
  · rwa [SessionRegistry.erase, AList.lookup_erase_ne hkey] at h

theorem lookup_sweepExpiredAt_of {r : SessionRegistry} {nowMs : Nat} {key : SessionId}
    {x : ServerSession} (h : (r.sweepExpiredAt limits nowMs).sessions.lookup key = some x) :
    r.sessions.lookup key = some x := by
  rw [SessionRegistry.sweepExpiredAt, Table.lookup_retain, Option.bind_eq_some_iff] at h
  obtain ⟨y, hy, hx⟩ := h
  split at hx
  · cases hx
  · cases hx
    exact hy

theorem Known.spawn_held (h : s.Known) {call : Call}
    (hcall : ∀ x, call.session? = some x → x ∈ s.created) :
    ∀ c ∈ s.calls ++ [call], ∀ x, c.session? = some x → x ∈ s.created := by
  intro c hc
  rcases List.mem_append.mp hc with hc | hc
  · exact h.held c hc
  · rw [List.mem_singleton.mp hc]
    exact hcall

theorem Known.finish_held (h : s.Known) (i : Nat) :
    ∀ c ∈ s.calls.eraseIdx i, ∀ x, c.session? = some x → x ∈ s.created :=
  fun c hc => h.held c (List.mem_of_mem_eraseIdx hc)

theorem Known.become_held (h : s.Known) (i : Nat) {call : Call}
    (hcall : ∀ x, call.session? = some x → x ∈ s.created) :
    ∀ c ∈ s.calls.set i call, ∀ x, c.session? = some x → x ∈ s.created :=
  Threads.forall_mem_set h.held hcall

theorem grantStreams_lt (desiredStreams : UInt32) :
    SessionRegistry.grantStreams limits desiredStreams < Word.size 32 := by
  have hdesired := desiredStreams.toNat_lt
  unfold SessionRegistry.grantStreams
  split
  · exact (min_le_left _ _).trans_lt (by decide)
  · exact (min_le_left _ _).trans_lt hdesired

/-- A new session gets a cell that no other has. -/
theorem Known.enlist (h : s.Known) (i : Nat) {r : SessionRegistry} {session : ServerSession}
    {key : SessionId} (hcell : session.cell = s.sessions.cells)
    (hgranted : session.grantedStreams < Word.size 32)
    (hsessions : r.sessions = s.sessions.sessions.insert key session)
    (hcells : r.cells = s.sessions.cells + 1) :
    ({ s with sessions := r, created := session :: s.created }.finish i).Known where
  below x hx := by
    change x.cell < r.cells
    rw [hcells]
    rcases List.mem_cons.mp hx with heq | hx
    · rw [heq, hcell]
      exact Nat.lt_succ_self _
    · exact Nat.lt_succ_of_lt (h.below x hx)
  cell_inj x hx y hy hxy := by
    rcases List.mem_cons.mp hx with heq | hx <;> rcases List.mem_cons.mp hy with heq' | hy
    · rw [heq, heq']
    · rw [heq, hcell] at hxy
      exact absurd hxy.symm (Nat.ne_of_lt (h.below y hy))
    · rw [heq', hcell] at hxy
      exact absurd hxy (Nat.ne_of_lt (h.below x hx))
    · exact h.cell_inj x hx y hy hxy
  granted x hx := by
    rcases List.mem_cons.mp hx with rfl | hx
    · exact hgranted
    · exact h.granted x hx
  table id x hx := by
    have hx : r.sessions.lookup id = some x := hx
    rw [hsessions] at hx
    by_cases hid : id = key
    · rw [hid, AList.lookup_insert] at hx
      cases hx
      exact List.mem_cons_self
    · rw [AList.lookup_insert_ne hid] at hx
      exact List.mem_cons_of_mem _ (h.table id x hx)
  held c hc x hx := List.mem_cons_of_mem _ (h.finish_held i c hc x hx)

theorem known_act {a : Event π} (h : Acts limits s a t) (hs : s.Known) : t.Known := by
  have hnone : ∀ {call : Call}, call.session? = none → ∀ x, call.session? = some x → x ∈ s.created :=
    fun hcall x hx => by rw [hcall] at hx; cases hx
  have hheld : ∀ {i : Nat} {call : Call}, s.calls[i]? = some call → ∀ x, call.session? = some x →
      x ∈ s.created := fun hcall => hs.held _ (Threads.mem_of_getElem? hcall)
  cases h with
  | refused => exact hs
  | reseen a h => exact hs.mono rfl h.cells (fun _ _ => by simp only [h.sessions, imp_self]) hs.held
  | room => exact hs.mono rfl rfl (fun _ _ => id) (hs.spawn_held (hnone rfl))
  | expired => exact hs.mono rfl rfl (fun _ _ => id) (hs.spawn_held (hnone rfl))
  | got purpose id nowMs hlookup h hcall =>
      refine hs.mono rfl h.cells (fun _ _ => by simp only [spawn, h.sessions, imp_self])
        (hs.spawn_held fun x hx => ?_)
      have hcreated := hs.table _ _ hlookup
      rcases hcall with rfl | rfl | ⟨token, rfl⟩ <;>
      · cases hx
        exact hcreated
  | expiredPlan => exact hs.mono rfl rfl (fun _ _ => id) (hs.spawn_held (hnone rfl))
  | plansTouched => exact hs.mono rfl rfl (fun _ _ => id) hs.held
  | swept nowMs =>
      exact hs.mono rfl rfl (fun _ _ => lookup_sweepExpiredAt_of) (hs.spawn_held (hnone rfl))
  | asked => exact hs.mono rfl rfl (fun _ _ => id) hs.held
  | notAdmitted m hcall => exact hs.mono rfl rfl (fun _ _ => id) (hs.finish_held _)
  | admitted hcall id token hsession hsessions hconns hcells =>
      refine hs.enlist _ (by rw [hsession]) ?_ hsessions hcells
      rw [hsession]
      exact grantStreams_lt _
  | tookOut hcall => exact hs.mono rfl rfl (fun _ _ => lookup_erase_of) (hs.finish_held _)
  | gaveUp hcall => exact hs.mono rfl rfl (fun _ _ => id) (hs.finish_held _)
  | inserted hcall => exact hs.mono rfl rfl (fun _ _ => id) (hs.finish_held _)
  | disconnected hcall =>
      exact hs.mono rfl rfl (fun _ _ => lookup_erase_of) (hs.become_held _ (hnone rfl))
  | plansDropped hcall => exact hs.mono rfl rfl (fun _ _ => id) (hs.finish_held _)
  | planDropped hcall => exact hs.mono rfl rfl (fun _ _ => id) (hs.finish_held _)
  | locked hcall => exact hs.mono rfl rfl (fun _ _ => id) (hs.become_held _ (hnone rfl))
  | sweptPlans hcall => exact hs.mono rfl rfl (fun _ _ => id) (hs.finish_held _)
  | notHeard hcall => exact hs.mono rfl rfl (fun _ _ => id) (hs.finish_held _)
  | heard hcall hroom hsessions hconns hcells =>
      exact hs.mono rfl hcells (fun _ _ => by simp only [become, hsessions, imp_self])
        (hs.become_held _ fun x hx => hheld hcall x hx)
  | greeted hcall =>
      exact hs.mono rfl rfl (fun _ _ => id) (hs.become_held _ fun x hx => hheld hcall x hx)
  | notGreeted hcall => exact hs.mono rfl rfl (fun _ _ => id) (hs.finish_held _)
  | served hcall => exact hs.mono rfl rfl (fun _ _ => id) (hs.finish_held _)

theorem known (h : (system π limits).Reachable s) : s.Known := by
  have hinv : (system π limits).Inductive (fun _ _ => True) Known :=
    { init := by
        rintro s rfl
        exact ⟨by simp [new], by simp [new], by simp [new],
          by simp [new, SessionRegistry.new], by simp [new]⟩
      step := fun hs _ hstep => known_act (acts_step hstep) hs }
  exact hinv.holds h

/-- The thread is a connection of the session that is counted in. -/
def Call.attaches (session : ServerSession) (call : Call) : Bool :=
  call = .greet session ∨ call = .serve session

/-- The connections of a session that are counted in: greeted, or being served. -/
def attached (s : Server π) (session : ServerSession) : Nat :=
  s.calls.countP (Call.attaches session)

/-- The connections of a session being served. -/
def serving (s : Server π) (session : ServerSession) : Nat := s.calls.count (.serve session)

/-- The socket of a connection counted in takes its `READY`. -/
def Heard (session : ServerSession) (s : Server π) : Event π → Prop
  | .move i (.wrote false) => s.calls[i]? ≠ some (.greet session)
  | _ => True

/-- The count of a session is that of its connections, and within its grant. -/
def Counted (session : ServerSession) (s : Server π) : Prop :=
  session ∈ s.created → s.sessions.dataConns session.cell = s.attached session ∧
    s.attached session ≤ session.grantedStreams

variable {session : ServerSession}

theorem attached_spawn (s : Server π) (call : Call) :
    (s.spawn call).attached session = s.attached session + (call.attaches session).toNat :=
  Threads.countP_concat _ _

theorem attached_finish {i : Nat} {call : Call} (h : s.calls[i]? = some call) :
    (s.finish i).attached session + (call.attaches session).toNat = s.attached session :=
  Threads.countP_eraseIdx h _

theorem attached_become {i : Nat} {call next : Call} (h : s.calls[i]? = some call) :
    (s.become i next).attached session + (call.attaches session).toNat =
      s.attached session + (next.attaches session).toNat := Threads.countP_set h _ _

theorem attached_spawn_of {call : Call} (h : call.attaches session = false) :
    (s.spawn call).attached session = s.attached session := by
  rw [attached_spawn, h]
  rfl

theorem attached_finish_of {i : Nat} {call : Call} (h : s.calls[i]? = some call)
    (hattaches : call.attaches session = false) :
    (s.finish i).attached session = s.attached session := by
  have hsum : (s.finish i).attached session + (call.attaches session).toNat = s.attached session :=
    attached_finish h
  rwa [hattaches] at hsum

theorem attached_become_of {i : Nat} {call next : Call} (h : s.calls[i]? = some call)
    (hattaches : call.attaches session = next.attaches session) :
    (s.become i next).attached session = s.attached session := by
  have hsum : (s.become i next).attached session + (call.attaches session).toNat =
      s.attached session + (next.attaches session).toNat := attached_become h
  rw [hattaches] at hsum
  exact Nat.add_right_cancel hsum

theorem Counted.congr (h : s.Counted session) (hcreated : t.created = s.created)
    (hconns : t.sessions.dataConns session.cell = s.sessions.dataConns session.cell)
    (hattached : t.attached session = s.attached session) : t.Counted session := by
  intro hsession
  rw [hconns, hattached]
  exact h (hcreated ▸ hsession)

/-- A connection told apart from the session's is counted in another cell. -/
theorem Known.cell_ne (h : s.Known) (hsession : session ∈ s.created) {other : ServerSession}
    (hother : other ∈ s.created) (hne : session ≠ other) : session.cell ≠ other.cell :=
  fun hcell => hne (h.cell_inj session hsession other hother hcell)

/-- A new session starts with no connections. -/
theorem Counted.enlist (hs : s.Known) (h : s.Counted session) (i : Nat)
    {new : ServerSession} (hcell : new.cell = s.sessions.cells)
    (hcalls : t.calls = s.calls.eraseIdx i) (hattached : t.attached session = s.attached session)
    (hcreated : t.created = new :: s.created)
    (hconns : t.sessions.dataConns = Function.update s.sessions.dataConns s.sessions.cells 0) :
    t.Counted session := by
  intro hsession
  rw [hcreated] at hsession
  rw [hconns]
  rcases List.mem_cons.mp hsession with rfl | hsession
  · have hzero : t.attached session = 0 := by
      refine List.countP_eq_zero.mpr fun call hcall hattaches => ?_
      have hheld : session ∈ s.created := by
        refine hs.held call (List.mem_of_mem_eraseIdx (hcalls ▸ hcall)) session ?_
        rcases of_decide_eq_true hattaches with rfl | rfl <;> rfl
      exact absurd hcell (Nat.ne_of_lt (hs.below session hheld))
    rw [hcell, Function.update_self, hzero]
    exact ⟨rfl, Nat.zero_le _⟩
  · rw [Function.update_of_ne (Nat.ne_of_lt (hs.below session hsession)), hattached]
    exact h hsession

theorem counted_heard (hs : s.Known) (h : s.Counted session) {i : Nat} {other : ServerSession}
    (hcall : s.calls[i]? = some (.hello other other.token))
    (hroom : s.sessions.dataConns other.cell < other.grantedStreams) {r : SessionRegistry}
    (hconns : r.dataConns = Function.update s.sessions.dataConns other.cell
      (s.sessions.dataConns other.cell + 1)) :
    ({ s with sessions := r }.become i (.greet other)).Counted session := by
  intro hsession
  obtain ⟨hcount, hle⟩ := h hsession
  have hattached : ({ s with sessions := r }.become i (.greet other)).attached session =
      s.attached session + ((Call.greet other).attaches session).toNat :=
    attached_become (s := { s with sessions := r }) hcall
  change r.dataConns session.cell = _ ∧ _
  rw [hconns, hattached]
  by_cases hother : session = other
  · subst hother
    rw [Function.update_self, hcount]
    simp only [Call.attaches, true_or, decide_true, Bool.toNat_true, true_and]
    omega
  · have hne := hs.cell_ne hsession (hs.held _ (Threads.mem_of_getElem? hcall) other rfl) hother
    have hother' : other ≠ session := Ne.symm hother
    rw [Function.update_of_ne hne, hcount]
    simpa [Call.attaches, hother'] using hle

theorem counted_served (hs : s.Known) (h : s.Counted session) {i : Nat} {other : ServerSession}
    (hcall : s.calls[i]? = some (.serve other)) :
    ({ s with sessions := s.sessions.closeDataConn other }.finish i).Counted session := by
  intro hsession
  obtain ⟨hcount, hle⟩ := h hsession
  have hattached : ({ s with sessions := s.sessions.closeDataConn other }.finish i).attached session +
      ((Call.serve other).attaches session).toNat = s.attached session :=
    attached_finish (s := { s with sessions := s.sessions.closeDataConn other }) hcall
  change Function.update s.sessions.dataConns other.cell _ session.cell = _ ∧ _
  by_cases hother : session = other
  · subst hother
    have hgranted := hs.granted session hsession
    simp only [Call.attaches, or_true, decide_true, Bool.toNat_true] at hattached
    rw [Function.update_self, hcount, ← hattached, Word.wrappingSub_of_le (by omega) (by omega)]
    omega
  · have hne := hs.cell_ne hsession (hs.held _ (Threads.mem_of_getElem? hcall) other rfl) hother
    have hother' : other ≠ session := Ne.symm hother
    simp only [Call.attaches, reduceCtorEq, Call.serve.injEq, hother', or_self, decide_false,
      Bool.toNat_false, Nat.add_zero] at hattached
    rw [Function.update_of_ne hne, hattached]
    exact ⟨hcount, hle⟩

theorem counted_act {a : Event π} (hs : s.Known) (hheard : s.Heard session a)
    (hact : Acts limits s a t) (h : s.Counted session) : t.Counted session := by
  cases hact with
  | refused => exact h
  | reseen a hseen => exact h.congr rfl (congrFun hseen.dataConns _) rfl
  | room => exact h.congr rfl rfl (attached_spawn_of rfl)
  | expired => exact h.congr rfl rfl (attached_spawn_of rfl)
  | got purpose id nowMs hlookup hseen hcall =>
      refine h.congr rfl (congrFun hseen.dataConns _) (attached_spawn_of ?_)
      rcases hcall with rfl | rfl | ⟨token, rfl⟩ <;> rfl
  | expiredPlan => exact h.congr rfl rfl (attached_spawn_of rfl)
  | plansTouched => exact h.congr rfl rfl rfl
  | swept => exact h.congr rfl rfl (attached_spawn_of rfl)
  | asked => exact h.congr rfl rfl rfl
  | notAdmitted m hcall => exact h.congr rfl rfl (attached_finish_of hcall rfl)
  | admitted hcall id token hnew hsessions hconns hcells =>
      exact h.enlist hs _ (by rw [hnew]) rfl (attached_finish_of hcall rfl) rfl hconns
  | tookOut hcall => exact h.congr rfl rfl (attached_finish_of hcall rfl)
  | gaveUp hcall => exact h.congr rfl rfl (attached_finish_of hcall rfl)
  | inserted hcall => exact h.congr rfl rfl (attached_finish_of hcall rfl)
  | disconnected hcall => exact h.congr rfl rfl (attached_become_of hcall rfl)
  | plansDropped hcall => exact h.congr rfl rfl (attached_finish_of hcall rfl)
  | planDropped hcall => exact h.congr rfl rfl (attached_finish_of hcall rfl)
  | locked hcall => exact h.congr rfl rfl (attached_become_of hcall rfl)
  | sweptPlans hcall => exact h.congr rfl rfl (attached_finish_of hcall rfl)
  | notHeard hcall => exact h.congr rfl rfl (attached_finish_of hcall rfl)
  | heard hcall hroom hsessions hconns => exact counted_heard hs h hcall hroom hconns
  | @greeted i other hcall =>
      refine h.congr rfl rfl (attached_become_of hcall ?_)
      simp [Call.attaches]
  | @notGreeted i other hcall =>
      refine h.congr rfl rfl (attached_finish_of hcall ?_)
      have hne : other ≠ session := by
        rintro rfl
        exact hheard hcall
      simp [Call.attaches, hne]
  | served hcall => exact counted_served hs h hcall

theorem counted (h : (system π limits).ReachableWhere (Heard session) s) : s.Counted session := by
  have hinv : (system π limits).Inductive (Heard session) fun s => s.Known ∧ s.Counted session :=
    { init := by
        rintro s rfl
        exact ⟨@known _ limits _ (.init rfl), fun hsession => by cases hsession⟩
      step := by
        rintro s t a ⟨hs, h⟩ hheard hstep
        have hact := acts_step hstep
        exact ⟨known_act hact hs, counted_act hs hheard hact h⟩ }
  exact (hinv.holds h).2

/-- With no connection of the session left unwritten to, those counted in are
those being served. -/
theorem attached_eq_serving (h : Call.greet session ∉ s.calls) :
    s.attached session = s.serving session := by
  refine List.countP_congr fun call hcall => ?_
  have hne : call ≠ .greet session := fun heq => h (heq ▸ hcall)
  simp [Call.attaches, hne]

/-- When no accepted connection of a session fails before its `READY` is out, the
count of the session is the number of its connections being served once their
handshakes are over, never more than it was granted, and zero once all have
ended. -/
theorem conns_counted (config : ValidConfig) (session : ServerSession) (s : Server π)
    (h : (system π config.limits).ReachableWhere (Heard session) s)
    (hsession : session ∈ s.created) :
    (Call.greet session ∉ s.calls → s.sessions.dataConns session.cell = s.serving session) ∧
    s.sessions.dataConns session.cell ≤ session.grantedStreams ∧
    ((∀ call ∈ s.calls, call.session? ≠ some session) →
      s.sessions.dataConns session.cell = 0) := by
  obtain ⟨hcount, hle⟩ := counted h hsession
  rw [hcount]
  refine ⟨attached_eq_serving, hle, fun hnone => ?_⟩
  have hgreet : Call.greet session ∉ s.calls := fun hcall => hnone _ hcall rfl
  rw [attached_eq_serving hgreet]
  exact List.count_eq_zero.mpr fun hcall => hnone _ hcall rfl

/-- The first session of a run, opened by a client with no preference. -/
def firstSession : ServerSession := ⟨sessionA, sessionA, 8, "a", 0⟩

/-- A session is opened, and a connection of it is accepted. -/
def accepted : List (Event Unit) :=
  [.create "a" 0 0, .move 0 (.enlist (some (sessionA, sessionA))),
    .get (.hello sessionA) sessionA.toList 0, .move 0 .go]

theorem conns_counted_one : ∃ s : Server Unit,
    (accepted ++ [Event.move 0 (.wrote true)]).foldlM (step ValidConfig.builtIn.limits) new = some s ∧
      s.sessions.dataConns 0 = 1 := by
  refine ⟨_, rfl, ?_⟩
  exact (conns_counted ValidConfig.builtIn firstSession _
    (.snoc (.move 0 (.wrote true)) (.snoc (.move 0 .go) (.snoc (.get (.hello sessionA)
      sessionA.toList 0) (.snoc (.move 0 (.enlist (some (sessionA, sessionA)))) (.snoc
        (.create "a" 0 0) .start trivial rfl) trivial rfl) trivial rfl) trivial rfl) trivial rfl)
    (by decide)).1 (by decide)

/-- A connection whose `READY` cannot be written keeps its place for good. -/
theorem ready_lost_keeps_place : ¬ ∀ (config : ValidConfig) (session : ServerSession)
    (s : Server Unit), (system Unit config.limits).Reachable s → session ∈ s.created →
      (Call.greet session ∉ s.calls → s.sessions.dataConns session.cell = s.serving session) ∧
      s.sessions.dataConns session.cell ≤ session.grantedStreams ∧
      ((∀ call ∈ s.calls, call.session? ≠ some session) →
        s.sessions.dataConns session.cell = 0) := by
  intro h
  have hrun := (h ValidConfig.builtIn firstSession _
    (System.reachable_of_run (accepted ++ [Event.move 0 (.wrote false)]) rfl) (by decide)).1 (by decide)
  revert hrun
  decide

/-! ## Plans of a disconnected session -/

/-- The session's plans are inserted before its disconnect drops them, and a sweep
that keeps one of them finds the session live in its second pass too. -/
def Ordered (limits : Limits) (id : SessionId) (s : Server π) : Event π → Prop
  | .move i (.insert (some _) _ _) => ∀ session, s.calls[i]? = some (.prepare session) →
      session.id = id → id ∉ s.ended
  | .move i .go => s.calls[i]? = some .holdPlans → ∀ sweep, s.sweeping = some sweep →
      ∀ requestId e, s.transfers.entries.lookup requestId = some e → e.session = id →
        s.transfers.keptBy limits sweep.nowMs sweep.isLive requestId e = true →
          sweep.isLive.ofSession id = true
  | _ => True

/-- The session's plans are listed under it, and gone once its disconnect returned. -/
structure Cleared (id : SessionId) (s : Server π) : Prop where
  filed : s.transfers.Filed id
  gone : id ∈ s.ended → ∀ requestId e, s.transfers.entries.lookup requestId = some e →
    e.session ≠ id

variable {id : SessionId}

/-- Steps that store no plan of the session keep `Cleared` when the plans stay filed. -/
theorem Cleared.mono (h : s.Cleared id) (hended : t.ended = s.ended)
    (hfiled : t.transfers.Filed id)
    (hlookup : ∀ requestId e, t.transfers.entries.lookup requestId = some e → e.session = id →
      s.transfers.entries.lookup requestId = some e) : t.Cleared id where
  filed := hfiled
  gone hid requestId e he hsession :=
    h.gone (hended ▸ hid) requestId e (hlookup requestId e he hsession) hsession

theorem Cleared.same (h : s.Cleared id) (hended : t.ended = s.ended)
    (hentries : t.transfers.entries = s.transfers.entries)
    (hsession : t.transfers.bySession = s.transfers.bySession) : t.Cleared id :=
  h.mono hended (h.filed.congr hentries hsession) fun _ _ he _ => hentries ▸ he

theorem Cleared.inserted (h : s.Cleared id) {i : Nat} {session : ServerSession}
    {random : Option Ticket} {plan : π} {nowMs : Nat}
    (hcall : s.calls[i]? = some (.prepare session))
    (hordered : s.Ordered limits id (.move i (.insert random plan nowMs))) :
    ({ s with
      transfers := (s.transfers.insertAt limits session.id random plan nowMs).2 }.finish i).Cleared
        id := by
  cases random with
  | none =>
      refine h.same rfl ?_ ?_
      · simp only [finish, insertAt_none]
      · simp only [finish, insertAt_none]
  | some ticket =>
      by_cases hsession : session.id = id
      · exact ⟨h.filed.insertAt session.id ticket plan nowMs,
          fun hended => absurd hended (hordered session hcall hsession)⟩
      · exact h.mono rfl (h.filed.insertAt session.id ticket plan nowMs) fun _ _ he heq =>
          lookup_of_insertAt he fun hother => hsession (hother.symm.trans heq)

theorem Cleared.plansDropped (h : s.Cleared id) (i : Nat) (other : SessionId) :
    ({ s with
      transfers := (s.transfers.removeSession other).2,
      ended := other :: s.ended }.finish i).Cleared id where
  filed := h.filed.removeSession other
  gone hid requestId e he := by
    rcases List.mem_cons.mp hid with rfl | hid
    · exact h.filed.session_ne he
    · exact h.gone hid requestId e (lookup_of_removeSession he)

theorem cleared_act {a : Event π} (hordered : s.Ordered limits id a) (hact : Acts limits s a t)
    (h : s.Cleared id) : t.Cleared id := by
  cases hact with
  | inserted hcall hfree random plan nowMs => exact h.inserted hcall hordered
  | plansDropped hcall hfree => exact h.plansDropped _ _
  | planDropped hcall hfree =>
      exact h.mono rfl (h.filed.remove _) fun _ _ he _ => lookup_of_remove he
  | @sweptPlans i hcall sweep hsweep =>
      refine h.mono rfl (h.filed.sweepAt ?_) fun _ _ he _ => lookup_of_sweepAt he
      exact hordered hcall sweep hsweep
  | plansTouched a hentries hsession => exact h.same rfl hentries hsession
  | _ => exact h.same rfl rfl rfl

theorem cleared (h : (system π limits).ReachableWhere (Ordered limits id) s) : s.Cleared id := by
  have hinv : (system π limits).Inductive (Ordered limits id) fun s => s.Cleared id :=
    { init := by
        rintro s rfl
        refine ⟨fun requestId e he => ?_, fun hid => by cases hid⟩
        simp [new, TransferRegistry.new] at he
      step := fun hs hordered hstep => cleared_act hordered (acts_step hstep) hs }
  exact hinv.holds h

/-- Once the disconnect of a session has returned, none of its plans is stored and
no fetch of its connections gets one, in every run in which its prepares insert
before the disconnect drops its plans and no sweep loses one of them. -/
theorem disconnect_clears (config : ValidConfig) (id : SessionId) (s : Server π)
    (h : (system π config.limits).ReachableWhere (Ordered config.limits id) s)
    (hended : id ∈ s.ended) :
    (∀ requestId e, s.transfers.entries.lookup requestId = some e → e.session ≠ id) ∧
    ∀ nowMs requestId ticket e r,
      s.transfers.fetch config.limits nowMs requestId ticket id ≠ (.ok e, r) := by
  have hgone := (cleared h).gone hended
  refine ⟨hgone, fun nowMs requestId ticket e r hfetch => ?_⟩
  rcases fetch_cases config.limits s.transfers nowMs requestId ticket id with
    ⟨error, heq⟩ | ⟨e', error, -, -, heq⟩ | ⟨e', he', -, -, hsession, heq⟩
  · rw [heq] at hfetch
    cases hfetch
  · rw [heq] at hfetch
    cases hfetch
  · exact hgone requestId e' he' hsession

/-- The session is opened, and a prepare and a disconnect of it have looked it up. -/
def overlapping : List (Event Unit) :=
  [.create "a" 0 0, .move 0 (.enlist (some (sessionA, sessionA))),
    .get .prepare sessionA.toList 0, .get .disconnect sessionA.toList 0]

/-- The prepare inserts, and the disconnect drops its plan. -/
theorem disconnect_clears_inserted : ∃ s : Server Unit,
    (overlapping ++ [Event.move 0 (.insert (some sessionB) () 0), .move 0 .go, .move 0 .go]).foldlM
      (step ValidConfig.builtIn.limits) new = some s ∧
    ∀ requestId e, s.transfers.entries.lookup requestId = some e → e.session ≠ sessionA := by
  refine ⟨_, rfl, ?_⟩
  exact (disconnect_clears ValidConfig.builtIn sessionA _
    (.snoc (.move 0 .go) (.snoc (.move 0 .go) (.snoc (.move 0 (.insert (some sessionB) () 0))
      (.snoc (.get .disconnect sessionA.toList 0) (.snoc (.get .prepare sessionA.toList 0)
        (.snoc (.move 0 (.enlist (some (sessionA, sessionA)))) (.snoc (.create "a" 0 0) .start
          trivial rfl) trivial rfl) trivial rfl) trivial rfl) (fun _ _ _ => by decide) rfl)
      (fun hcall => by cases hcall) rfl) (fun hcall => by cases hcall) rfl) (by decide)).1

/-- The prepare inserts after the disconnect has dropped the session's plans. -/
theorem plan_outlives_session : ¬ ∀ (config : ValidConfig) (id : SessionId) (s : Server Unit),
    (system Unit config.limits).Reachable s → id ∈ s.ended →
      (∀ session, Call.prepare session ∈ s.calls → session.id ≠ id) →
      (∀ requestId e, s.transfers.entries.lookup requestId = some e → e.session ≠ id) ∧
      ∀ nowMs requestId ticket e r,
        s.transfers.fetch config.limits nowMs requestId ticket id ≠ (.ok e, r) := by
  intro h
  refine (h ValidConfig.builtIn sessionA _ (System.reachable_of_run (overlapping ++
    [.move 1 .go, .move 1 .go, .move 0 (.insert (some sessionB) () 0)]) rfl) (by decide)
    (fun session hcall => by cases hcall)).1 1 ⟨1, sessionA, sessionB, (), 0⟩ (by decide) rfl

/-- A sweep that sees the session end between its two passes hides the plan from
the disconnect. -/
example : ((overlapping ++ [Event.move 0 (.insert (some sessionB) () 0), .sweep 0,
    .move 1 (.lock 0), .askPlan 1, .move 0 .go, .askSession sessionA, .move 1 .go,
    .move 0 .go]).foldlM (step ValidConfig.builtIn.limits) new).map
      (fun s : Server Unit => (s.ended, s.transfers.entries.entries.map (·.2))) =
    some ([sessionA], [⟨1, sessionA, sessionB, (), 0⟩]) := by decide +kernel

end Server

end Aex
