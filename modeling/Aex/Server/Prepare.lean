import Aex.Lib.Fallible
import Aex.Server.Session
import Aex.Server.TransferSessions

/-!
# Preparing selections

`prepare` turns a resolved selection into a plan, or into the data itself when
that is small, and `prepare_selections` does so for a batch.  Plans of one batch
can push each other out of the registry when there are more of them than a session
may have.
-/

namespace Aex

open Lts TransferRegistry Transfers Fallible

/-- What the control plane shares. -/
structure Control (π : Type) where
  sessions : SessionRegistry
  transfers : TransferRegistry π

/-- A selection resolved on its dataset; `inlineData` is what reading all of it
returns, and `shape` whether its dimensions fit the reply. -/
structure Selected (π : Type) where
  plan : π
  totalBytes : Nat
  inlineData : Except ServerError (List UInt8)
  shape : Except ServerError (List Nat)

/-- One element of a batch: what its file, its name and its indices resolve to, the
times of its two lookups, and what the source of tickets returns. -/
structure Element (π : Type) where
  selected : Except ServerError (Selected π)
  nowMs : Nat
  insertMs : Nat
  random : Option Ticket

/-- The reply for one selection; a `request_id` of 0 means there is nothing left to
fetch. -/
structure TransferPlan where
  requestId : Nat
  ticket : Option Ticket
  totalBytes : Nat
  shape : List Nat
  inlineData : List UInt8
  deriving DecidableEq

/-- Is the selection small enough to travel inline? -/
def Selected.isInline {π : Type} (config : ServerConfig) (sel : Selected π) (budget : Nat) : Bool :=
  sel.totalBytes ≤ config.transfer.inlineLimitBytes && sel.totalBytes ≤ budget

/-- The reply, if the shape can be told in it. -/
def planReply {π : Type} (sel : Selected π) (requestId : Nat) (ticket : Option Ticket)
    (inlineData : List UInt8) : Except ServerError TransferPlan :=
  sel.shape.map fun shape => ⟨requestId, ticket, sel.totalBytes, shape, inlineData⟩

namespace Control

variable {π : Type}

/-- Resolve a selection into a plan, or into the data itself when it is small enough
to travel inline and the budget still has room for it. -/
def prepare (config : ServerConfig) (sessionId : List UInt8) (c : Control π) (budget : Nat)
    (el : Element π) : Except ServerError TransferPlan × Control π × Nat :=
  match c.sessions.getAt config.limits sessionId el.nowMs with
  | (.error e, sessions) => (.error e, { c with sessions := sessions }, budget)
  | (.ok session, sessions) =>
      let c := { c with sessions := sessions }
      match el.selected with
      | .error e => (.error e, c, budget)
      | .ok sel =>
          if sel.isInline config budget then
            (sel.inlineData >>= planReply sel 0 none, c, budget - sel.totalBytes)
          else
            match c.transfers.insertAt config.limits session.id el.random sel.plan el.insertMs with
            | (.error e, transfers) => (.error e, { c with transfers := transfers }, budget)
            | (.ok entry, transfers) =>
                (planReply sel entry.requestId (some entry.ticket) [],
                  { c with transfers := transfers }, budget)

/-- The elements of a batch, one after the other. -/
def prepareEach (config : ServerConfig) (sessionId : List UInt8) :
    Control π → Nat → List (Element π) → List (Except ServerError TransferPlan) × Control π
  | c, _, [] => ([], c)
  | c, budget, el :: rest =>
      let (result, c, budget) := c.prepare config sessionId budget el
      let (results, c) := prepareEach config sessionId c budget rest
      (result :: results, c)

/-- A dead session fails the call rather than every element. -/
def prepareSelections (config : ServerConfig) (sessionId : List UInt8) (nowMs : Nat) (c : Control π)
    (elements : List (Element π)) :
    Except ServerError (List (Except ServerError TransferPlan)) × Control π :=
  match c.sessions.getAt config.limits sessionId nowMs with
  | (.error e, sessions) => (.error e, { c with sessions := sessions })
  | (.ok _, sessions) =>
      let (results, c) := prepareEach config sessionId { c with sessions := sessions }
        (config.limits.grpcMaxMessageBytes / 2) elements
      (.ok results, c)

/-- Each element for which a plan is stored gets an id that no stored plan has. -/
def FreshEach (config : ServerConfig) (sessionId : List UInt8) :
    Control π → Nat → List (Element π) → Prop
  | _, _, [] => True
  | c, budget, el :: rest =>
      ((c.prepare config sessionId budget el).2.1.transfers.cells ≠ c.transfers.cells →
        c.transfers.entries.lookup c.transfers.nextRequestId.1 = none) ∧
        FreshEach config sessionId (c.prepare config sessionId budget el).2.1
          (c.prepare config sessionId budget el).2.2 rest

/-! ## What one prepare does -/

variable {config : ServerConfig} {sessionId : List UInt8} {c : Control π} {budget : Nat}
  {el : Element π} {session : ServerSession}

/-- The id of a request names this session, or none. -/
def Names (sessionId : List UInt8) (session : ServerSession) (r : SessionRegistry) : Prop :=
  ∀ key other, SessionRegistry.idOf sessionId = some key → r.sessions.lookup key = some other →
    other = session

theorem Names.erase {r : SessionRegistry} (h : Names sessionId session r) (id : SessionId) :
    Names sessionId session (r.erase id) := by
  intro key other hkey hother
  refine h key other hkey ?_
  by_cases hid : key = id
  · rw [hid, SessionRegistry.erase, AList.lookup_erase] at hother
    cases hother
  · rwa [SessionRegistry.erase, AList.lookup_erase_ne hid] at hother

theorem Names.getAt {r : SessionRegistry} (h : Names sessionId session r) (limits : Limits)
    (nowMs : Nat) : Names sessionId session (r.getAt limits sessionId nowMs).2 ∧
      ∀ other, (r.getAt limits sessionId nowMs).1 = .ok other → other = session := by
  unfold SessionRegistry.getAt
  split
  · exact ⟨h, by simp⟩
  · exact ⟨h.erase _, by simp⟩
  · rename_i found hlook
    obtain ⟨key, hkey, hlookup⟩ := SessionRegistry.look_ok hlook
    refine ⟨h, fun other hother => ?_⟩
    cases hother
    exact h key found hkey hlookup

theorem names_of_getAt {limits : Limits} {r : SessionRegistry} {nowMs : Nat}
    (h : (r.getAt limits sessionId nowMs).1 = .ok session) :
    Names sessionId session (r.getAt limits sessionId nowMs).2 := by
  unfold SessionRegistry.getAt at h ⊢
  split at h
  · cases h
  · cases h
  · rename_i found hlook
    cases h
    obtain ⟨key, hkey, hlookup⟩ := SessionRegistry.look_ok hlook
    intro key' other hkey' hother
    rw [hkey] at hkey'
    cases hkey'
    exact Option.some.inj (hother.symm.trans hlookup)

/-- A prepare stores no plan and names none in its reply, or stores one and names it. -/
theorem prepare_cases (hnames : Names sessionId session c.sessions) :
    Names sessionId session (c.prepare config sessionId budget el).2.1.sessions ∧
    (((c.prepare config sessionId budget el).2.1.transfers.entries = c.transfers.entries ∧
        (c.prepare config sessionId budget el).2.1.transfers.bySession = c.transfers.bySession ∧
        (c.prepare config sessionId budget el).2.1.transfers.lastUsedMs = c.transfers.lastUsedMs ∧
        (c.prepare config sessionId budget el).2.1.transfers.cells = c.transfers.cells ∧
        ∀ reply, (c.prepare config sessionId budget el).1 = .ok reply → reply.requestId = 0) ∨
      ∃ ticket plan,
        (c.prepare config sessionId budget el).2.1.transfers =
          (c.transfers.insertAt config.limits session.id (some ticket) plan el.insertMs).2 ∧
        ∀ reply, (c.prepare config sessionId budget el).1 = .ok reply →
          reply.requestId = c.transfers.nextRequestId.1 ∧ reply.ticket = some ticket) := by
  obtain ⟨hnames', hsame⟩ := hnames.getAt config.limits el.nowMs
  unfold prepare
  cases hget : c.sessions.getAt config.limits sessionId el.nowMs with
  | mk result sessions =>
      rw [hget] at hnames' hsame
      cases result with
      | error e => exact ⟨hnames', .inl ⟨rfl, rfl, rfl, rfl, by simp⟩⟩
      | ok found =>
          obtain rfl := hsame found rfl
          cases hselected : el.selected with
          | error e => exact ⟨hnames', .inl ⟨rfl, rfl, rfl, rfl, by simp⟩⟩
          | ok sel =>
              dsimp only
              by_cases hinline : sel.isInline config budget = true
              · rw [if_pos hinline]
                refine ⟨hnames', .inl ⟨rfl, rfl, rfl, rfl, fun reply hreply => ?_⟩⟩
                obtain ⟨bytes, -, hreply⟩ := bind_eq_ok.mp hreply
                obtain ⟨shape, -, rfl⟩ := map_eq_ok.mp hreply
                rfl
              · rw [if_neg hinline]
                cases hrandom : el.random with
                | none =>
                    rw [show c.transfers.insertAt config.limits found.id none sel.plan el.insertMs =
                      (.error (.random "the entropy source failed"),
                        (c.transfers.insertAt config.limits found.id none sel.plan el.insertMs).2)
                      from rfl, insertAt_none]
                    exact ⟨hnames', .inl ⟨rfl, rfl, rfl, rfl, by simp⟩⟩
                | some ticket =>
                    have hok := (insertAt_spec config.limits c.transfers found.id ticket sel.plan
                      el.insertMs rfl rfl).1
                    cases hinsert : c.transfers.insertAt config.limits found.id (some ticket)
                      sel.plan el.insertMs with
                    | mk result transfers =>
                        rw [hinsert] at hok
                        cases hok
                        refine ⟨hnames', .inr ⟨ticket, sel.plan, by rw [hinsert], fun reply hreply => ?_⟩⟩
                        obtain ⟨shape, -, rfl⟩ := map_eq_ok.mp hreply
                        exact ⟨rfl, rfl⟩

/-! ## The plans of a batch -/

/-- The plans stored since `start` cells were in use are listed under their session,
and were used later than those it had before; `times` are those of the inserts. -/
structure Batch (limits : Limits) (session : SessionId) (start : Nat) (times : List Nat)
    (r : TransferRegistry π) : Prop where
  listed : r.Listed limits
  keyed : Keyed r
  below : ∀ id e, r.entries.lookup id = some e → e.cell < r.cells
  cell_inj : ∀ id e id' e', r.entries.lookup id = some e → r.entries.lookup id' = some e' →
    e.cell = e'.cell → e = e'
  started : start ≤ r.cells
  own : ∀ id e, r.entries.lookup id = some e → start ≤ e.cell →
    e.session = session ∧ id ∈ r.idsOf session
  earlier : ∀ id e, r.entries.lookup id = some e → e.session = session → e.cell < start →
    ∀ time ∈ times, r.lastUsedMs e.cell < time
  later : ∀ id e, r.entries.lookup id = some e → start ≤ e.cell → r.lastUsedMs e.cell ∈ times

namespace Batch

variable {limits : Limits} {owner : SessionId} {start : Nat} {times : List Nat}
  {r t : TransferRegistry π}

theorem congr (h : Batch limits owner start times r) (hentries : t.entries = r.entries)
    (hsession : t.bySession = r.bySession) (hused : t.lastUsedMs = r.lastUsedMs)
    (hcells : t.cells = r.cells) : Batch limits owner start times t where
  listed := h.listed.mono hentries hsession
  keyed := by
    unfold Keyed
    rw [hentries]
    exact h.keyed
  below := by
    rw [hentries, hcells]
    exact h.below
  cell_inj := by
    rw [hentries]
    exact h.cell_inj
  started := hcells ▸ h.started
  own := by
    unfold idsOf
    rw [hentries, hsession]
    exact h.own
  earlier := by
    rw [hentries, hused]
    exact h.earlier
  later := by
    rw [hentries, hused]
    exact h.later

/-- Is the plan under this id one of the batch? -/
def young (r : TransferRegistry π) (start id : Nat) : Bool :=
  (r.entries.lookup id).any fun e => start ≤ e.cell

theorem young_of_lookup {id : Nat} {e : TransferEntry π} (he : r.entries.lookup id = some e) :
    young r start id = decide (start ≤ e.cell) := by
  rw [young, he]
  rfl

/-- No more plans of the batch are listed than cells were taken for them. -/
theorem countP_young_le (h : Batch limits owner start times r) :
    (r.idsOf owner).countP (young r start) ≤ r.cells - start := by
  have hcell : ∀ id ∈ (r.idsOf owner).filter (young r start), ∃ e,
      r.entries.lookup id = some e ∧ start ≤ e.cell := by
    intro id hid
    obtain ⟨hlisted, hyoung⟩ := List.mem_filter.mp hid
    obtain ⟨e, he, -⟩ := h.listed.own owner id hlisted
    rw [young_of_lookup he, decide_eq_true_eq] at hyoung
    exact ⟨e, he, hyoung⟩
  have hnodup : (((r.idsOf owner).filter (young r start)).map fun id =>
      ((r.entries.lookup id).map TransferEntry.cell).getD 0).Nodup := by
    refine ((h.listed.nodup owner).filter _).map_on fun id hid id' hid' heq => ?_
    obtain ⟨e, he, -⟩ := hcell id hid
    obtain ⟨e', he', -⟩ := hcell id' hid'
    rw [he, he'] at heq
    rw [← h.keyed id e he, ← h.keyed id' e' he', h.cell_inj id e id' e' he he' heq]
  have hsubset : (((r.idsOf owner).filter (young r start)).map fun id =>
      ((r.entries.lookup id).map TransferEntry.cell).getD 0) ⊆
        List.range' start (r.cells - start) := by
    intro cell hmem
    obtain ⟨id, hid, rfl⟩ := List.mem_map.mp hmem
    obtain ⟨e, he, hle⟩ := hcell id hid
    have hlt := h.below id e he
    rw [he, Option.map_some, Option.getD_some, List.mem_range'_1]
    omega
  have hlen := (List.subperm_of_subset hnodup hsubset).length_le
  rwa [List.length_map, List.length_range', ← List.countP_eq_length_filter] at hlen

/-- An insert that finds room for the batch spares its plans. -/
theorem insertAt_spares (h : Batch limits owner start times r)
    (hfresh : r.entries.lookup r.nextRequestId.1 = none)
    (hroom : r.cells < start + limits.maxTransfersPerSession) {ticket : Ticket} {plan : π}
    {nowMs id : Nat} {e : TransferEntry π} (he : r.entries.lookup id = some e)
    (hyoung : start ≤ e.cell) :
    (r.insertAt limits owner (some ticket) plan nowMs).2.entries.lookup id = some e := by
  have hfew := h.countP_young_le
  have hstarted := h.started
  refine h.listed.insertAt_spares hfresh h.below (by omega) ?_
    ((young_of_lookup he).trans (decide_eq_true hyoung)) (h.own id e he hyoung).2 he
  intro x ex y ey hx hxyoung hex hy hyold hey
  rw [young_of_lookup hex, decide_eq_true_eq] at hxyoung
  rw [young_of_lookup hey, decide_eq_false_iff_not, Nat.not_le] at hyold
  exact h.earlier y ey hey (h.listed.session_eq hy hey) hyold _ (h.later x ex hex hxyoung)

/-- The plan an insert stores joins the batch. -/
theorem insertAt (h : Batch limits owner start times r) (hcap : 0 < limits.maxTransfersPerSession)
    (hfresh : r.entries.lookup r.nextRequestId.1 = none) (ticket : Ticket) (plan : π) {nowMs : Nat}
    (htime : nowMs ∈ times) :
    Batch limits owner start times (r.insertAt limits owner (some ticket) plan nowMs).2 := by
  obtain ⟨-, -, hcells, hused, gone, kept, hperm, hlookup, hids, -⟩ :=
    insertAt_spec limits r owner ticket plan nowMs rfl rfl
  rw [h.listed.storedIds_eq] at hperm
  have hstarted := h.started
  have hold : ∀ id e, r.entries.lookup id = some e →
      Function.update r.lastUsedMs r.cells nowMs e.cell = r.lastUsedMs e.cell := fun id e he =>
    Function.update_of_ne (Nat.ne_of_lt (h.below id e he)) _ _
  -- Each stored plan is the new one, or one stored before that was not evicted.
  have hcases : ∀ id e, (r.insertAt limits owner (some ticket) plan nowMs).2.entries.lookup id =
      some e → id = r.nextRequestId.1 ∧ e = ⟨r.nextRequestId.1, owner, ticket, plan, r.cells⟩ ∨
        id ≠ r.nextRequestId.1 ∧ id ∉ gone ∧ r.entries.lookup id = some e := by
    intro id e he
    rw [hlookup] at he
    split at he
    · cases he
      exact .inl ⟨‹_›, rfl⟩
    split at he
    · cases he
    · exact .inr ⟨‹_›, ‹_›, he⟩
  constructor
  · exact h.listed.insertAt hcap hfresh
  · intro id e he
    rcases hcases id e he with ⟨rfl, rfl⟩ | ⟨-, -, he⟩
    · rfl
    · exact h.keyed id e he
  · intro id e he
    rw [hcells]
    rcases hcases id e he with ⟨rfl, rfl⟩ | ⟨-, -, he⟩
    · exact Nat.lt_succ_self _
    · exact Nat.lt_succ_of_lt (h.below id e he)
  · intro id e id' e' he he' hcell
    rcases hcases id e he with ⟨rfl, rfl⟩ | ⟨-, -, he⟩ <;>
    rcases hcases id' e' he' with ⟨rfl, rfl⟩ | ⟨-, -, he'⟩
    · rfl
    · exact absurd hcell.symm (Nat.ne_of_lt (h.below id' e' he'))
    · exact absurd hcell (Nat.ne_of_lt (h.below id e he))
    · exact h.cell_inj id e id' e' he he' hcell
  · rw [hcells]
    exact Nat.le_succ_of_le hstarted
  · intro id e he hyoung
    rw [hids, if_pos rfl]
    rcases hcases id e he with ⟨rfl, rfl⟩ | ⟨-, hgone, he⟩
    · exact ⟨rfl, List.mem_append_right _ (List.mem_singleton_self _)⟩
    · obtain ⟨howner, hid⟩ := h.own id e he hyoung
      exact ⟨howner, List.mem_append_left _
        ((List.mem_append.mp (hperm.mem_iff.mpr hid)).resolve_left hgone)⟩
  · intro id e he howner hcell
    rw [hused]
    rcases hcases id e he with ⟨rfl, rfl⟩ | ⟨-, -, he⟩
    · exact absurd hcell (Nat.not_lt.mpr hstarted)
    · rw [hold id e he]
      exact h.earlier id e he howner hcell
  · intro id e he hyoung
    rw [hused]
    rcases hcases id e he with ⟨rfl, rfl⟩ | ⟨-, -, he⟩
    · rwa [Function.update_self]
    · rw [hold id e he]
      exact h.later id e he hyoung

end Batch

/-- A batch that takes no more cells than its session may have plans keeps every plan
of its own, those stored before this element and those stored from here on. -/
theorem prepareEach_spec {limits : Limits} {start : Nat} {times : List Nat}
    (hlimits : config.limits = limits) (hcap : 0 < limits.maxTransfersPerSession)
    (elements : List (Element π)) : ∀ (c : Control π) (budget : Nat),
    Names sessionId session c.sessions → Batch limits session.id start times c.transfers →
    FreshEach config sessionId c budget elements → (∀ el ∈ elements, el.insertMs ∈ times) →
    c.transfers.cells ≤ (prepareEach config sessionId c budget elements).2.transfers.cells ∧
    ((prepareEach config sessionId c budget elements).2.transfers.cells ≤
        start + limits.maxTransfersPerSession →
      (∀ id e, c.transfers.entries.lookup id = some e → start ≤ e.cell →
        (prepareEach config sessionId c budget elements).2.transfers.entries.lookup id = some e) ∧
      ∀ reply, .ok reply ∈ (prepareEach config sessionId c budget elements).1 →
        reply.requestId ≠ 0 → ∃ e, (prepareEach config sessionId c budget
          elements).2.transfers.entries.lookup reply.requestId = some e ∧
            reply.ticket = some e.ticket ∧ e.session = session.id) := by
  induction elements with
  | nil =>
      intro c budget _ _ _ _
      exact ⟨le_rfl, fun _ => ⟨fun id e he _ => he, by simp [prepareEach]⟩⟩
  | cons el rest ih =>
      intro c budget hnames hbatch hfresh htimes
      obtain ⟨htime, htimes⟩ := List.forall_mem_cons.mp htimes
      obtain ⟨hmint, hfresh⟩ := hfresh
      obtain ⟨hnames', hcases⟩ := @prepare_cases π config sessionId c budget el session hnames
      rw [prepareEach]
      generalize c.prepare config sessionId budget el = out at *
      obtain ⟨result, c', budget'⟩ := out
      dsimp only at *
      rcases hcases with ⟨hentries, hsession, hused, hcells, hreply⟩ | ⟨ticket, plan, htransfers, hreply⟩
      · have hbatch' := hbatch.congr hentries hsession hused hcells
        obtain ⟨hle, hkept⟩ := ih c' budget' hnames' hbatch' hfresh htimes
        rw [hcells] at hle
        refine ⟨hle, fun hfits => ?_⟩
        obtain ⟨hstay, hreplies⟩ := hkept hfits
        refine ⟨fun id e he => hstay id e (hentries ▸ he), fun reply hmem hplan => ?_⟩
        rcases List.mem_cons.mp hmem with heq | hmem
        · exact absurd (hreply reply heq.symm) hplan
        · exact hreplies reply hmem hplan
      · have hspec := insertAt_spec config.limits c.transfers session.id ticket plan el.insertMs rfl rfl
        obtain ⟨-, -, hcells, -, gone, kept, -, hlookup, -⟩ := hspec
        rw [← htransfers] at hcells hlookup
        have hmint := hmint (by omega)
        have hbatch' : Batch limits session.id start times c'.transfers := by
          rw [htransfers, hlimits]
          exact hbatch.insertAt hcap hmint ticket plan htime
        obtain ⟨hle, hkept⟩ := ih c' budget' hnames' hbatch' hfresh htimes
        refine ⟨by omega, fun hfits => ?_⟩
        obtain ⟨hstay, hreplies⟩ := hkept hfits
        refine ⟨fun id e he hyoung => hstay id e ?_ hyoung, fun reply hmem hplan => ?_⟩
        · rw [htransfers, hlimits]
          exact hbatch.insertAt_spares hmint (by omega) he hyoung
        · rcases List.mem_cons.mp hmem with heq | hmem
          · obtain ⟨hid, hticket⟩ := hreply reply heq.symm
            have hnew := hlookup c.transfers.nextRequestId.1
            rw [if_pos rfl] at hnew
            rw [hid, hticket]
            exact ⟨_, hstay _ _ hnew hbatch.started, rfl, rfl⟩
          · exact hreplies reply hmem hplan

/-- A registry reached with unused ids, whose plans of the session were last used
before the batch inserts any of its own. -/
theorem batch_of_reachable {limits : Limits} (hcap : 0 < limits.maxTransfersPerSession)
    {s : Transfers π} (h : (Transfers.system π limits).ReachableWhere FreshMint s)
    {owner : SessionId} {times : List Nat}
    (hearlier : ∀ id e, s.registry.entries.lookup id = some e → e.session = owner →
      ∀ time ∈ times, s.registry.lastUsedMs e.cell < time) :
    Batch limits owner s.registry.cells times s.registry := by
  have hhanded := handed_of_reachable h.reachable
  have hbelow : ∀ id e, s.registry.entries.lookup id = some e → e.cell < s.registry.cells :=
    fun id e he => hhanded.below e (hhanded.stored id e he)
  exact {
    listed := (inductive_listed hcap).holds h
    keyed := keyed_of_reachable h.reachable
    below := hbelow
    cell_inj := fun id e id' e' he he' =>
      hhanded.cell_inj e (hhanded.stored id e he) e' (hhanded.stored id' e' he')
    started := le_rfl
    own := fun id e he hyoung => absurd (hbelow id e he) (Nat.not_lt.mpr hyoung)
    earlier := fun id e he howner _ => hearlier id e he howner
    later := fun id e he hyoung => absurd (hbelow id e he) (Nat.not_lt.mpr hyoung) }

/-- Room for one plan a session. -/
def onePlan : ValidConfig := ⟨{ limits := { maxTransfersPerSession := 1 } }, rfl⟩

/-- A selection too large to travel inline. -/
def largeElement : Element Unit :=
  ⟨.ok ⟨(), 1000000, .ok [], .ok [1000000]⟩, 0, 1, some sessionB⟩

/-- The sessions of a server with one client. -/
def oneClient : SessionRegistry :=
  (SessionRegistry.new.createAt onePlan.limits "a" 0 (some (sessionA, sessionA)) 0).2

end Control

end Aex
