import Aex.Server.Reader

/-!
# Read-ahead

Before blocking on a piece, the reader of a connection asks the storage for the window
after it.  One mark says how far the storage has been asked, whatever stream the next
fetch is of: it is right for a fetch that finds asked for all that lies behind it.
-/

namespace Aex

/-- How far ahead of the piece being read the storage is asked to fetch. -/
def readAheadBytes : Nat := 4 * 2 ^ 20

/-- Where the window of the piece at `offset` ends. -/
def windowEnd (L : SelectionLayout) (offset : Nat) : Nat :=
  min (Word.saturatingAdd 64 offset readAheadBytes) L.totalBytes

/-- What the reader asks of an array, where `σ` is everything outside the reader. -/
structure Dataset (σ : Type) where
  willNeed : (offset len : Nat) → σ → σ
  readRange : (offset len : Nat) → σ → Except AexError (Vector UInt8 len) × σ

/-- How a connection reads what it is asked to send.  Only the length of its buffer
matters. -/
structure FetchReader where
  bufferLen : Nat
  /-- How far into the logical stream the storage has been asked to read. -/
  hinted : Nat
  deriving Repr, DecidableEq

namespace FetchReader

def new (pieceBytes : Nat) : FetchReader := ⟨pieceBytes, 0⟩

def mark (reader : FetchReader) (hinted : Nat) : FetchReader := { reader with hinted := hinted }

@[simp] theorem mark_bufferLen (reader : FetchReader) (hinted : Nat) :
    (reader.mark hinted).bufferLen = reader.bufferLen := rfl

@[simp] theorem mark_hinted (reader : FetchReader) (hinted : Nat) :
    (reader.mark hinted).hinted = hinted := rfl

/-- Whether a fetch goes on in the last window. -/
def carriesOn (reader : FetchReader) (offset : Nat) : Bool :=
  offset ≤ reader.hinted ∧ reader.hinted - offset ≤ readAheadBytes

/-- The reader a fetch starts with: one that carries on keeps the mark, and one that jumps
starts again. -/
def carried (reader : FetchReader) (offset : Nat) : FetchReader :=
  if reader.carriesOn offset then reader else reader.mark offset

section Serve

variable {σ ε : Type} (L : SelectionLayout) (dataset : Dataset σ)
  (send : Nat → List UInt8 → σ → Except ε Unit × σ)

/-- Ask for the window of the piece at `offset`, as far as it is past the mark. -/
def askAhead (reader : FetchReader) (offset : Nat) (s : σ) : FetchReader × σ :=
  let window := windowEnd L offset
  if reader.hinted < window then
    let start := max reader.hinted offset
    (reader.mark window,
      dataset.willNeed start (Word.wrappingSub 64 window start) s)
  else (reader, s)

/-- The loop of `serve`.  Every piece moves the range on, so `len` is enough fuel. -/
def servePieces : Nat → FetchReader → Nat → Nat → σ →
    Except ε (Except AexError Unit) × FetchReader × σ
  | 0, reader, _, _, s => (.ok (.ok ()), reader, s)
  | fuel + 1, reader, offset, len, s =>
      if len = 0 then (.ok (.ok ()), reader, s)
      else
        let piece := rowAligned L offset (min len reader.bufferLen)
        let asked := reader.askAhead L dataset offset s
        match dataset.readRange offset piece asked.2 with
        | (.error e, s) => (.ok (.error e), asked.1, s)
        | (.ok bytes, s) =>
            match send offset bytes.toList s with
            | (.error e, s) => (.error e, asked.1, s)
            | (.ok (), s) => servePieces fuel asked.1 (offset + piece) (len - piece) s

/-- Read `[offset, offset + len)` of a transfer in pieces, handing each to `send`. -/
def serve (reader : FetchReader) (offset len : Nat) (s : σ) :
    Except ε (Except AexError Unit) × FetchReader × σ :=
  servePieces L dataset send len (reader.carried offset) offset len s

/-! ## What is read -/

variable {L dataset send} {reader : FetchReader} {offset len fuel : Nat} {s : σ}

theorem askAhead_past (h : reader.hinted < windowEnd L offset) :
    reader.askAhead L dataset offset s = (reader.mark (windowEnd L offset),
      dataset.willNeed (max reader.hinted offset)
        (Word.wrappingSub 64 (windowEnd L offset) (max reader.hinted offset)) s) := by
  rw [askAhead]
  exact if_pos h

theorem askAhead_behind (h : windowEnd L offset ≤ reader.hinted) :
    reader.askAhead L dataset offset s = (reader, s) := by
  rw [askAhead]
  exact if_neg (Nat.not_lt.mpr h)

theorem askAhead_bufferLen :
    (reader.askAhead L dataset offset s).1.bufferLen = reader.bufferLen := by
  rcases Nat.lt_or_ge reader.hinted (windowEnd L offset) with h | h
  · rw [askAhead_past h]
    exact mark_bufferLen _ _
  · rw [askAhead_behind h]

/-- Storage that takes no hints and reads the same whenever it is asked. -/
def Dataset.still (readRange : ReadRange) : Dataset σ :=
  ⟨fun _ _ s => s, fun offset len s => (readRange offset len, s)⟩

theorem askAhead_still (readRange : ReadRange) :
    (reader.askAhead L (Dataset.still readRange) offset s).2 = s := by
  rcases Nat.lt_or_ge reader.hinted (windowEnd L offset) with h | h
  · rw [askAhead_past h]
    rfl
  · rw [askAhead_behind h]

/-- The hints aside, a fetch is read and sent as its pieces are. -/
theorem serve_still (readRange : ReadRange) :
    ∃ after, serve L (Dataset.still readRange) send reader offset len s =
      ((Aex.serve L reader.bufferLen readRange send len offset len s).1, after,
        (Aex.serve L reader.bufferLen readRange send len offset len s).2) := by
  have hpieces : ∀ fuel (reader : FetchReader) offset len s, ∃ after,
      servePieces L (Dataset.still readRange) send fuel reader offset len s =
        ((Aex.serve L reader.bufferLen readRange send fuel offset len s).1, after,
          (Aex.serve L reader.bufferLen readRange send fuel offset len s).2) := by
    intro fuel
    induction fuel with
    | zero => exact fun reader _ _ _ => ⟨reader, rfl⟩
    | succ fuel ih =>
        intro reader offset len s
        rw [servePieces, Aex.serve]
        by_cases hlen : len = 0
        · rw [if_pos hlen, if_pos hlen]
          exact ⟨reader, rfl⟩
        rw [if_neg hlen, if_neg hlen]
        have hworld : (reader.askAhead L (Dataset.still readRange) offset s).2 = s :=
          askAhead_still readRange
        have hbuffer : (reader.askAhead L (Dataset.still readRange) offset s).1.bufferLen =
            reader.bufferLen := askAhead_bufferLen
        generalize reader.askAhead L (Dataset.still readRange) offset s = asked at hworld hbuffer
        dsimp only [Dataset.still]
        rw [hworld]
        cases readRange offset (rowAligned L offset (min len reader.bufferLen)) with
        | error e => exact ⟨asked.1, rfl⟩
        | ok bytes =>
            dsimp only
            cases send offset bytes.toList s with
            | mk sent s =>
                cases sent with
                | error e => exact ⟨asked.1, rfl⟩
                | ok done =>
                    have := ih asked.1 (offset + rowAligned L offset (min len reader.bufferLen))
                      (len - rowAligned L offset (min len reader.bufferLen)) s
                    rwa [hbuffer] at this
  have hbuffer : (reader.carried offset).bufferLen = reader.bufferLen := by
    unfold carried
    split
    · rfl
    · exact mark_bufferLen reader offset
  have := hpieces len (reader.carried offset) offset len s
  rwa [hbuffer] at this

end Serve

end FetchReader

/-! ## A record of the requests -/

/-- What is asked of the storage of a transfer. -/
inductive Request (T : Type) where
  | willNeed (t : T) (offset len : Nat)
  | readRange (t : T) (offset len : Nat)
  deriving Repr, DecidableEq

/-- Storage that records what it is asked, the newest first. -/
def Dataset.recorded {σ T : Type} (dataset : Dataset σ) (t : T) :
    Dataset (σ × List (Request T)) where
  willNeed offset len s := (dataset.willNeed offset len s.1, .willNeed t offset len :: s.2)
  readRange offset len s :=
    ((dataset.readRange offset len s.1).1, (dataset.readRange offset len s.1).2,
      .readRange t offset len :: s.2)

/-- A transfer as its fetches are served.  Its bytes are counted in 64 bits. -/
structure OpenTransfer (σ : Type) where
  layout : SelectionLayout
  dataset : Dataset σ
  fits : layout.totalBytes < Word.size 64

/-- The range `[offset, offset + len)` of a transfer. -/
structure FetchRange (T : Type) where
  transfer : T
  offset : Nat
  len : Nat
  deriving Repr, DecidableEq

/-- A connection between two fetches. -/
structure Serving (T σ : Type) where
  reader : FetchReader
  outside : σ
  record : List (Request T)
  /-- Where the last fetch ended: at the end of its range, or at the piece that failed. -/
  ended : Nat

variable {T σ ε : Type}

def lastRead : List (Request T) → Nat
  | .readRange _ offset _ :: _ => offset
  | _ => 0

/-- Where a fetch of a range up to `stop` ended. -/
def endOf (result : Except ε (Except AexError Unit)) (stop : Nat) (record : List (Request T)) : Nat :=
  match result with
  | .ok (.ok ()) => stop
  | _ => lastRead record

namespace Serving

def start (bufferLen : Nat) (outside : σ) : Serving T σ := ⟨.new bufferLen, outside, [], 0⟩

variable (open_ : T → OpenTransfer σ) (send : T → Nat → List UInt8 → σ → Except ε Unit × σ)

/-- Hand a piece on and leave the record alone. -/
def sending (t : T) (offset : Nat) (bytes : List UInt8) (s : σ × List (Request T)) :
    Except ε Unit × σ × List (Request T) :=
  ((send t offset bytes s.1).1, (send t offset bytes s.1).2, s.2)

def fetch (s : Serving T σ) (f : FetchRange T) : Serving T σ :=
  let served := s.reader.serve (open_ f.transfer).layout
    ((open_ f.transfer).dataset.recorded f.transfer) (sending send f.transfer) f.offset f.len
    (s.outside, s.record)
  ⟨served.2.1, served.2.2.1, served.2.2.2, endOf served.1 (f.offset + f.len) served.2.2.2⟩

/-- The fetches of one connection, one after the other. -/
def run (s : Serving T σ) (fetches : List (FetchRange T)) : Serving T σ :=
  fetches.foldl (fetch open_ send) s

end Serving

/-- A request hints at a byte of a transfer's stream. -/
def Request.Hints (t : T) (byte : Nat) : Request T → Prop
  | .willNeed t' offset len => t' = t ∧ offset ≤ byte ∧ byte < offset + len
  | .readRange _ _ _ => False

def Hinted (record : List (Request T)) (t : T) (byte : Nat) : Prop :=
  ∃ request ∈ record, request.Hints t byte

/-- Before each piece is read, its window has been hinted. -/
def AskedAhead (total : T → Nat) : List (Request T) → Prop
  | [] => True
  | .willNeed _ _ _ :: earlier => AskedAhead total earlier
  | .readRange t offset _ :: earlier =>
      (∀ byte, offset ≤ byte → byte < min (offset + readAheadBytes) (total t) →
        Hinted earlier t byte) ∧ AskedAhead total earlier

/-- No byte is hinted twice. -/
def HintedOnce (record : List (Request T)) : Prop :=
  record.Pairwise fun later earlier => ∀ t byte, later.Hints t byte → ¬ earlier.Hints t byte

/-- What lies between the start of a fetch and the mark has been hinted to its transfer,
where the fetch carries on. -/
def MarkTrue (total : T → Nat) (s : Serving T σ) (f : FetchRange T) : Prop :=
  0 < f.len → s.reader.carriesOn f.offset = true →
    ∀ byte, f.offset ≤ byte → byte < min s.reader.hinted (total f.transfer) →
      Hinted s.record f.transfer byte

section Record

variable {total : T → Nat} {record : List (Request T)} {t : T} {offset len byte : Nat}
  {request : Request T}

theorem not_hinted_nil : ¬ Hinted ([] : List (Request T)) t byte := by
  intro h
  obtain ⟨request, hmem, -⟩ := h
  cases hmem

theorem Hinted.cons (h : Hinted record t byte) : Hinted (request :: record) t byte := by
  obtain ⟨earlier, hmem, hhints⟩ := h
  exact ⟨earlier, List.mem_cons_of_mem _ hmem, hhints⟩

theorem hinted_willNeed (hle : offset ≤ byte) (hlt : byte < offset + len) :
    Hinted (.willNeed t offset len :: record) t byte :=
  ⟨_, List.mem_cons_self, rfl, hle, hlt⟩

theorem hinted_cons_iff (h : ¬ request.Hints t byte) :
    Hinted (request :: record) t byte ↔ Hinted record t byte := by
  constructor
  · intro hhinted
    obtain ⟨earlier, hmem, hhints⟩ := hhinted
    rcases List.mem_cons.mp hmem with rfl | hmem
    · exact (h hhints).elim
    · exact ⟨earlier, hmem, hhints⟩
  · exact Hinted.cons

theorem AskedAhead.of_suffix {more : List (Request T)} (h : AskedAhead total more)
    (hsuffix : record <:+ more) : AskedAhead total record := by
  obtain ⟨newer, rfl⟩ := hsuffix
  induction newer with
  | nil => exact h
  | cons request newer ih =>
      cases request with
      | willNeed t offset len => exact ih h
      | readRange t offset len => exact ih h.2

end Record

/-! ## One piece, and then a fetch -/

theorem readAheadBytes_pos : 0 < readAheadBytes := by decide

section Pieces

variable {o : OpenTransfer σ} {t : T} {record : List (Request T)} {reader : FetchReader}
  {offset len fuel : Nat} {outside : σ}

theorem OpenTransfer.windowEnd_eq (o : OpenTransfer σ) (offset : Nat) :
    windowEnd o.layout offset = min (offset + readAheadBytes) o.layout.totalBytes := by
  have := o.fits
  unfold windowEnd Word.saturatingAdd
  omega

/-- What asking ahead of a piece does to the mark and to the record. -/
theorem askAhead_cases (o : OpenTransfer σ) (t : T) (record : List (Request T))
    (reader : FetchReader) (outside : σ) (hlt : offset < o.layout.totalBytes) :
    ∃ window, window = min (offset + readAheadBytes) o.layout.totalBytes ∧
      ((window ≤ reader.hinted ∧
          reader.askAhead o.layout (o.dataset.recorded t) offset (outside, record) =
            (reader, outside, record)) ∨
        (reader.hinted < window ∧ ∃ after,
          reader.askAhead o.layout (o.dataset.recorded t) offset (outside, record) =
            (reader.mark window, after, .willNeed t (max reader.hinted offset)
              (window - max reader.hinted offset) :: record))) := by
  refine ⟨windowEnd o.layout offset, o.windowEnd_eq offset, ?_⟩
  rcases Nat.lt_or_ge reader.hinted (windowEnd o.layout offset) with h | h
  · have hpos := readAheadBytes_pos
    have hwindow := o.windowEnd_eq offset
    have hfits := o.fits
    rw [FetchReader.askAhead_past h, Word.wrappingSub_of_le (by omega) (by omega)]
    exact .inr ⟨h, _, rfl⟩
  · exact .inl ⟨h, FetchReader.askAhead_behind h⟩

/-- A piece ends the fetch, or the loop goes on after it. -/
theorem servePieces_succ (send : T → Nat → List UInt8 → σ → Except ε Unit × σ) (hlen : len ≠ 0)
    (stop : Nat) : ∃ asked piece, piece ≤ len ∧
      FetchReader.askAhead o.layout (o.dataset.recorded t) reader offset (outside, record) = asked ∧
      ∀ served, FetchReader.servePieces o.layout (o.dataset.recorded t) (Serving.sending send t)
          (fuel + 1) reader offset len (outside, record) = served →
        (endOf served.1 stop served.2.2.2 = offset ∧ served.2.1 = asked.1 ∧
          served.2.2.2 = .readRange t offset piece :: asked.2.2) ∨
        ∃ after, FetchReader.servePieces o.layout (o.dataset.recorded t) (Serving.sending send t)
          fuel asked.1 (offset + piece) (len - piece)
          (after, .readRange t offset piece :: asked.2.2) = served := by
  obtain ⟨asked, hasking⟩ : ∃ asked, FetchReader.askAhead o.layout (o.dataset.recorded t) reader
      offset (outside, record) = asked := ⟨_, rfl⟩
  refine ⟨asked, rowAligned o.layout offset (min len reader.bufferLen),
    Nat.le_trans (rowAligned_le _ _ _) (Nat.min_le_left _ _), hasking, ?_⟩
  intro served hserved
  rw [FetchReader.servePieces, if_neg hlen, hasking] at hserved
  generalize rowAligned o.layout offset (min len reader.bufferLen) = piece at *
  dsimp only [Dataset.recorded, Serving.sending] at hserved
  cases hread : (o.dataset.readRange offset piece asked.2.1).1 with
  | error e =>
      rw [hread] at hserved
      subst hserved
      exact .inl ⟨rfl, rfl, rfl⟩
  | ok bytes =>
      rw [hread] at hserved
      dsimp only at hserved
      cases hsent : (send t offset bytes.toList (o.dataset.readRange offset piece asked.2.1).2).1 with
      | error e =>
          rw [hsent] at hserved
          subst hserved
          exact .inl ⟨rfl, rfl, rfl⟩
      | ok done =>
          rw [hsent] at hserved
          exact .inr ⟨_, hserved⟩

/-- What each piece preserves, a fetch does.  `stop` is the end of the range. -/
theorem servePieces_invariant {P : Nat → FetchReader → List (Request T) → Prop} {stop : Nat}
    (hpiece : ∀ at_ piece reader outside record, at_ < stop → P at_ reader record →
      ∀ asked, FetchReader.askAhead o.layout (o.dataset.recorded t) reader at_ (outside, record) = asked →
        P at_ asked.1 (.readRange t at_ piece :: asked.2.2))
    (hon : ∀ at_ next reader record, at_ ≤ next → P at_ reader record → P next reader record)
    (send : T → Nat → List UInt8 → σ → Except ε Unit × σ)
    (hstop : offset + len = stop) (h : P offset reader record) :
    ∀ served, FetchReader.servePieces o.layout (o.dataset.recorded t) (Serving.sending send t) fuel
        reader offset len (outside, record) = served →
      P (endOf served.1 stop served.2.2.2) served.2.1 served.2.2.2 := by
  induction fuel generalizing offset len reader outside record with
  | zero =>
      intro served hserved
      subst hserved
      exact hon offset stop _ _ (by omega) h
  | succ fuel ih =>
      intro served hserved
      by_cases hlen : len = 0
      · rw [FetchReader.servePieces, if_pos hlen] at hserved
        subst hserved
        exact hon offset stop _ _ (by omega) h
      obtain ⟨asked, piece, hle, hasking, hcases⟩ := servePieces_succ send hlen stop
      have hasked := hpiece offset piece reader outside record (by omega) h asked hasking
      rcases hcases served hserved with ⟨hend, hreader, hrecord⟩ | ⟨after, hrest⟩
      · rw [hend, hreader, hrecord]
        exact hasked
      · exact ih (by omega) (hon _ _ _ _ (Nat.le_add_right _ _) hasked) served hrest

end Pieces

section Fetch

variable {open_ : T → OpenTransfer σ} {send : T → Nat → List UInt8 → σ → Except ε Unit × σ}
  {s : Serving T σ} {f : FetchRange T} {reader : FetchReader} {offset : Nat}

theorem carried_hinted_le : (reader.carried offset).hinted ≤ offset + readAheadBytes := by
  unfold FetchReader.carried
  split
  · rename_i h
    have := (of_decide_eq_true h).2
    omega
  · rw [FetchReader.mark_hinted]
    omega

theorem carried_of_carriesOn (h : reader.carriesOn offset = true) : reader.carried offset = reader :=
  if_pos h

/-- A fetch that does not carry on has nothing behind the mark. -/
theorem carried_hinted_of_not (h : reader.carriesOn offset ≠ true) :
    (reader.carried offset).hinted = offset := by
  rw [FetchReader.carried, if_neg h, FetchReader.mark_hinted]

variable (open_ send s f) in
/-- What each piece of a fetch preserves, the fetch does. -/
theorem Serving.fetch_invariant {P : Nat → FetchReader → List (Request T) → Prop}
    (hpiece : ∀ at_ piece reader outside record, at_ < f.offset + f.len → P at_ reader record →
      ∀ asked, FetchReader.askAhead (open_ f.transfer).layout
          ((open_ f.transfer).dataset.recorded f.transfer) reader at_ (outside, record) = asked →
        P at_ asked.1 (.readRange f.transfer at_ piece :: asked.2.2))
    (hon : ∀ at_ next reader record, at_ ≤ next → P at_ reader record → P next reader record)
    (h : P f.offset (s.reader.carried f.offset) s.record) :
    P (s.fetch open_ send f).ended (s.fetch open_ send f).reader (s.fetch open_ send f).record :=
  servePieces_invariant hpiece hon send rfl h _ rfl

end Fetch

/-! ## What holds on a connection -/

/-- Nothing is hinted at or past the end of a stream. -/
def HintedWithin (total : T → Nat) (record : List (Request T)) : Prop :=
  ∀ t byte, Hinted record t byte → byte < total t

def totals (open_ : T → OpenTransfer σ) (t : T) : Nat := (open_ t).layout.totalBytes

/-- A fetch asks for a range of its transfer's stream. -/
def InRange (open_ : T → OpenTransfer σ) (f : FetchRange T) : Prop :=
  f.offset + f.len ≤ totals open_ f.transfer

section Step

variable {open_ : T → OpenTransfer σ} {send : T → Nat → List UInt8 → σ → Except ε Unit × σ}
  {s : Serving T σ} {f : FetchRange T}

theorem fetch_within (hf : InRange open_ f) (h : HintedWithin (totals open_) s.record) :
    HintedWithin (totals open_) (s.fetch open_ send f).record := by
  refine Serving.fetch_invariant open_ send s f (P := fun _ _ record => HintedWithin (totals open_) record)
    ?_ (fun _ _ _ _ _ h => h) h
  intro at_ piece reader outside record hat h asked hasking t byte hhinted
  rw [hinted_cons_iff id] at hhinted
  obtain ⟨window, hwindow, hcases⟩ := askAhead_cases (open_ f.transfer) f.transfer
    record reader outside (Nat.lt_of_lt_of_le hat hf)
  rcases hcases with ⟨-, hbehind⟩ | ⟨hpast, after, hpushed⟩
  · obtain rfl := hasking.symm.trans hbehind
    exact h t byte hhinted
  · obtain rfl := hasking.symm.trans hpushed
    by_cases hnew : (Request.willNeed f.transfer (max reader.hinted at_)
        (window - max reader.hinted at_)).Hints t byte
    · obtain ⟨rfl, hle, hlt⟩ := hnew
      show byte < (open_ f.transfer).layout.totalBytes
      omega
    · rw [hinted_cons_iff hnew] at hhinted
      exact h t byte hhinted

/-- Asking ahead makes up the window, where what lies behind the mark was hinted. -/
theorem askAhead_window {reader : FetchReader} {offset : Nat} {outside : σ}
    {record : List (Request T)} {asked : FetchReader × σ × List (Request T)}
    (hlt : offset < totals open_ f.transfer) (hle : reader.hinted ≤ offset + readAheadBytes)
    (hasking : FetchReader.askAhead (open_ f.transfer).layout
      ((open_ f.transfer).dataset.recorded f.transfer) reader offset (outside, record) = asked)
    (hahead : AskedAhead (totals open_) record)
    (hbehind : ∀ byte, offset ≤ byte → byte < min reader.hinted (totals open_ f.transfer) →
      Hinted record f.transfer byte) :
    AskedAhead (totals open_) asked.2.2 ∧ asked.1.hinted ≤ offset + readAheadBytes ∧
    ∀ byte, offset ≤ byte → byte < min (offset + readAheadBytes) (totals open_ f.transfer) →
      Hinted asked.2.2 f.transfer byte := by
  obtain ⟨window, hwindow, hcases⟩ := askAhead_cases (open_ f.transfer) f.transfer
    record reader outside hlt
  rw [totals, ← hwindow]
  rw [totals] at hbehind
  rcases hcases with ⟨hcovered, hasked⟩ | ⟨hpast, after, hasked⟩
  · obtain rfl := hasking.symm.trans hasked
    exact ⟨hahead, hle, fun byte hstart hend => hbehind byte hstart (by omega)⟩
  · obtain rfl := hasking.symm.trans hasked
    refine ⟨hahead, by rw [FetchReader.mark_hinted]; omega, ?_⟩
    intro byte hstart hend
    rcases Nat.lt_or_ge byte reader.hinted with hold | hnew
    · exact (hbehind byte hstart (by omega)).cons
    · exact hinted_willNeed (by omega) (by omega)

variable (send) in
/-- The window of every piece is hinted before the piece is read, if all of the bytes
behind the mark have been. -/
theorem fetch_askedAhead (hf : InRange open_ f) (h : AskedAhead (totals open_) s.record)
    (hmark : ∀ byte, f.offset ≤ byte → byte < min (s.reader.carried f.offset).hinted
      (totals open_ f.transfer) → Hinted s.record f.transfer byte) :
    AskedAhead (totals open_) (s.fetch open_ send f).record ∧
    ∀ byte, (s.fetch open_ send f).ended ≤ byte →
      byte < min (s.fetch open_ send f).reader.hinted (totals open_ f.transfer) →
        Hinted (s.fetch open_ send f).record f.transfer byte := by
  have hfetch := Serving.fetch_invariant open_ send s f (P := fun at_ reader record =>
    AskedAhead (totals open_) record ∧ reader.hinted ≤ at_ + readAheadBytes ∧
    ∀ byte, at_ ≤ byte → byte < min reader.hinted (totals open_ f.transfer) →
      Hinted record f.transfer byte) ?_ ?_
    ⟨h, carried_hinted_le, hmark⟩
  · exact ⟨hfetch.1, hfetch.2.2⟩
  · intro at_ piece reader outside record hat h asked hasking
    obtain ⟨hahead, hle, hbehind⟩ := h
    have hlt : at_ < totals open_ f.transfer := Nat.lt_of_lt_of_le hat hf
    obtain ⟨hasked, hnext, hwindow⟩ := askAhead_window hlt hle hasking hahead hbehind
    exact ⟨⟨hwindow, hasked⟩, hnext, fun byte hstart hend => (hwindow byte hstart (by omega)).cons⟩
  · intro at_ next reader record hle h
    exact ⟨h.1, by omega, fun byte hbyte => h.2.2 byte (by omega)⟩

/-- A record only grows. -/
theorem askAhead_suffix {o : OpenTransfer σ} {t : T} {reader : FetchReader} {offset : Nat}
    {outside : σ} {record : List (Request T)} {asked : FetchReader × σ × List (Request T)}
    (hlt : offset < o.layout.totalBytes)
    (hasking : FetchReader.askAhead o.layout (o.dataset.recorded t) reader offset
      (outside, record) = asked) : record <:+ asked.2.2 := by
  obtain ⟨window, -, hcases⟩ := askAhead_cases o t record reader outside hlt
  rcases hcases with ⟨-, hasked⟩ | ⟨-, after, hasked⟩
  · obtain rfl := hasking.symm.trans hasked
    exact List.suffix_rfl
  · obtain rfl := hasking.symm.trans hasked
    exact List.suffix_cons _ _

theorem servePieces_suffix {o : OpenTransfer σ} {t : T} {reader : FetchReader}
    {offset len fuel : Nat} {outside : σ} {record : List (Request T)}
    {served : Except ε (Except AexError Unit) × FetchReader × σ × List (Request T)}
    (hrange : offset + len ≤ o.layout.totalBytes)
    (hserved : FetchReader.servePieces o.layout (o.dataset.recorded t) (Serving.sending send t) fuel
      reader offset len (outside, record) = served) : record <:+ served.2.2.2 := by
  refine servePieces_invariant (P := fun _ _ later => record <:+ later) ?_
    (fun _ _ _ _ _ h => h) send rfl List.suffix_rfl served hserved
  intro at_ piece reader outside later hat h asked hasking
  exact h.trans ((askAhead_suffix (Nat.lt_of_lt_of_le hat hrange) hasking).trans
    (List.suffix_cons _ _))

theorem fetch_suffix (hf : InRange open_ f) : s.record <:+ (s.fetch open_ send f).record :=
  servePieces_suffix hf rfl

/-- What lies behind the mark was hinted, if the window of the first piece is hinted
before it is read. -/
theorem markTrue_of_fetch (hf : InRange open_ f)
    (h : AskedAhead (totals open_) (s.fetch open_ send f).record) :
    MarkTrue (totals open_) s f := by
  intro hlen hcarries byte hstart hend
  obtain ⟨t, offset, len⟩ := f
  dsimp only [InRange, totals] at hf hlen hcarries hstart hend ⊢
  obtain ⟨fuel, rfl⟩ : ∃ fuel, len = fuel + 1 := ⟨len - 1, by omega⟩
  have hlt : offset < (open_ t).layout.totalBytes := by omega
  obtain ⟨asked, piece, hpiece, hasking, hcases⟩ := @servePieces_succ T σ ε (open_ t) t
    s.record s.reader offset (fuel + 1) fuel s.outside send (by omega) (offset + (fuel + 1))
  obtain ⟨served, hserved⟩ : ∃ served, FetchReader.servePieces (open_ t).layout
      ((open_ t).dataset.recorded t) (Serving.sending send t) (fuel + 1)
      (s.reader.carried offset) offset (fuel + 1) (s.outside, s.record) = served := ⟨_, rfl⟩
  have hrecord : (s.fetch open_ send ⟨t, offset, fuel + 1⟩).record = served.2.2.2 := by
    rw [← hserved]
    rfl
  rw [hrecord] at h
  rw [carried_of_carriesOn hcarries] at hserved
  have hread : Request.readRange t offset piece :: asked.2.2 <:+ served.2.2.2 := by
    rcases hcases served hserved with ⟨-, -, hlast⟩ | ⟨after, hrest⟩
    · rw [hlast]
    · exact servePieces_suffix (by omega) hrest
  have hcarried := (of_decide_eq_true hcarries).2
  have hhinted := (h.of_suffix hread).1 byte hstart (by rw [totals]; omega)
  -- The first piece adds only what is past the mark.
  obtain ⟨window, -, hwindow⟩ := askAhead_cases (open_ t) t s.record
    s.reader s.outside hlt
  rcases hwindow with ⟨-, hasked⟩ | ⟨-, after, hasked⟩
  · obtain rfl := hasking.symm.trans hasked
    exact hhinted
  · obtain rfl := hasking.symm.trans hasked
    refine (hinted_cons_iff ?_).mp hhinted
    intro hnew
    have := hnew.2.1
    omega

/-- A fetch keeps the windows hinted before they are read exactly when it finds the mark
true. -/
theorem fetch_askedAhead_iff (hf : InRange open_ f) :
    AskedAhead (totals open_) (s.fetch open_ send f).record ↔
      AskedAhead (totals open_) s.record ∧ MarkTrue (totals open_) s f := by
  constructor
  · intro h
    exact ⟨h.of_suffix (fetch_suffix hf), markTrue_of_fetch hf h⟩
  · intro h
    obtain ⟨hahead, hmark⟩ := h
    by_cases hlen : f.len = 0
    · have hrecord : (s.fetch open_ send f).record = s.record := by
        obtain ⟨t, offset, len⟩ := f
        obtain rfl : len = 0 := hlen
        rfl
      rwa [hrecord]
    refine (fetch_askedAhead send hf hahead ?_).1
    intro byte hstart hend
    by_cases hcarries : s.reader.carriesOn f.offset = true
    · rw [carried_of_carriesOn hcarries] at hend
      exact hmark (Nat.pos_of_ne_zero hlen) hcarries byte hstart hend
    · rw [carried_hinted_of_not hcarries] at hend
      omega

end Step

/-! ## Fetches that follow one another -/

/-- Since `record`, only `t` was hinted to, no byte twice and none past the mark. -/
def OnceSince (t : T) (record : List (Request T)) (offset : Nat) (reader : FetchReader)
    (later : List (Request T)) : Prop :=
  ∃ since, later = since ++ record ∧ HintedOnce since ∧
    (∀ t' byte, Hinted since t' byte → t' = t ∧ byte < reader.hinted) ∧
    reader.hinted ≤ offset + readAheadBytes

/-- The fetches are of one transfer, and each starts where the one before ended or later. -/
def Onward (open_ : T → OpenTransfer σ) (send : T → Nat → List UInt8 → σ → Except ε Unit × σ)
    (t : T) : Serving T σ → List (FetchRange T) → Prop
  | _, [] => True
  | s, f :: fetches =>
      f.transfer = t ∧ s.ended ≤ f.offset ∧ Onward open_ send t (s.fetch open_ send f) fetches

section Once

variable {open_ : T → OpenTransfer σ} {send : T → Nat → List UInt8 → σ → Except ε Unit × σ}
  {s : Serving T σ} {f : FetchRange T} {t : T} {record later : List (Request T)}
  {reader : FetchReader} {offset : Nat}

theorem OnceSince.start : OnceSince t record offset (reader.carried offset) record :=
  ⟨[], rfl, List.Pairwise.nil, fun _ _ h => (not_hinted_nil h).elim, carried_hinted_le⟩

theorem OnceSince.read {piece : Nat} (h : OnceSince t record offset reader later) :
    OnceSince t record offset reader (.readRange t offset piece :: later) := by
  obtain ⟨since, rfl, honce, hpast, hle⟩ := h
  refine ⟨.readRange t offset piece :: since, rfl, ?_, ?_, hle⟩
  · exact List.pairwise_cons.mpr ⟨fun earlier _ t byte hhints => hhints.elim, honce⟩
  · intro t' byte hhinted
    exact hpast t' byte ((hinted_cons_iff id).mp hhinted)

/-- A hint from the mark on is of bytes that have not been hinted. -/
theorem OnceSince.hint {start window : Nat} (h : OnceSince t record offset reader later)
    (hstart : reader.hinted ≤ start) (hwindow : start < window)
    (hle : window ≤ offset + readAheadBytes) :
    OnceSince t record offset (reader.mark window) (.willNeed t start (window - start) :: later) := by
  obtain ⟨since, rfl, honce, hpast, -⟩ := h
  refine ⟨.willNeed t start (window - start) :: since, rfl, ?_, ?_, hle⟩
  · refine List.pairwise_cons.mpr ⟨?_, honce⟩
    intro earlier hmem t' byte hnew hold
    have := (hpast t' byte ⟨earlier, hmem, hold⟩).2
    have := hnew.2.1
    omega
  · intro t' byte hhinted
    rw [FetchReader.mark_hinted]
    by_cases hnew : (Request.willNeed t start (window - start)).Hints t' byte
    · obtain ⟨rfl, -, hlt⟩ := hnew
      exact ⟨rfl, by omega⟩
    · obtain ⟨rfl, hlt⟩ := hpast t' byte ((hinted_cons_iff hnew).mp hhinted)
      exact ⟨rfl, by omega⟩

/-- The mark a fetch starts with is no lower, if it does not go back. -/
theorem OnceSince.carried {next : Nat} (h : OnceSince t record offset reader later)
    (hle : offset ≤ next) : OnceSince t record next (reader.carried next) later := by
  obtain ⟨since, rfl, honce, hpast, hmark⟩ := h
  refine ⟨since, rfl, honce, ?_, carried_hinted_le⟩
  intro t' byte hhinted
  obtain ⟨rfl, hlt⟩ := hpast t' byte hhinted
  refine ⟨rfl, ?_⟩
  by_cases hcarries : reader.carriesOn next = true
  · rwa [carried_of_carriesOn hcarries]
  · rw [carried_hinted_of_not hcarries]
    have : ¬ (next ≤ reader.hinted ∧ reader.hinted - next ≤ readAheadBytes) :=
      fun h => hcarries (decide_eq_true h)
    omega

theorem fetch_onceSince (hf : InRange open_ f)
    (h : OnceSince f.transfer record f.offset (s.reader.carried f.offset) s.record) :
    OnceSince f.transfer record (s.fetch open_ send f).ended (s.fetch open_ send f).reader
      (s.fetch open_ send f).record := by
  refine Serving.fetch_invariant open_ send s f (P := OnceSince f.transfer record) ?_ ?_ h
  · intro at_ piece reader outside later hat h asked hasking
    obtain ⟨window, hwindow, hcases⟩ := askAhead_cases (open_ f.transfer) f.transfer
      later reader outside (Nat.lt_of_lt_of_le hat hf)
    rcases hcases with ⟨-, hasked⟩ | ⟨hpast, after, hasked⟩
    · obtain rfl := hasking.symm.trans hasked
      exact h.read
    · obtain rfl := hasking.symm.trans hasked
      have hpos := readAheadBytes_pos
      have hlt : at_ < (open_ f.transfer).layout.totalBytes := Nat.lt_of_lt_of_le hat hf
      exact (h.hint (Nat.le_max_left _ _) (by omega) (by omega)).read
  · intro at_ next reader later hle h
    obtain ⟨since, hlater, honce, hpast, hmark⟩ := h
    exact ⟨since, hlater, honce, hpast, by omega⟩

/-- While the fetches of one transfer do not go back, nothing is hinted twice. -/
theorem run_onceSince {fetches : List (FetchRange T)} (hrange : ∀ f ∈ fetches, InRange open_ f)
    (honward : Onward open_ send t s fetches)
    (h : OnceSince t record s.ended s.reader s.record) :
    OnceSince t record (s.run open_ send fetches).ended (s.run open_ send fetches).reader
      (s.run open_ send fetches).record := by
  induction fetches generalizing s with
  | nil => exact h
  | cons f fetches ih =>
      rw [List.forall_mem_cons] at hrange
      obtain ⟨rfl, hended, hrest⟩ := honward
      exact ih hrange.2 hrest (fetch_onceSince hrange.1 (h.carried hended))

end Once

/-! ## Runs -/

/-- Every fetch finds the mark true. -/
def MarksTrue (open_ : T → OpenTransfer σ) (send : T → Nat → List UInt8 → σ → Except ε Unit × σ) :
    Serving T σ → List (FetchRange T) → Prop
  | _, [] => True
  | s, f :: fetches =>
      MarkTrue (totals open_) s f ∧ MarksTrue open_ send (s.fetch open_ send f) fetches

/-- A fetch that carries on behind the mark is of the transfer fetched before it, and
starts where that fetch ended or later. -/
def Streams (open_ : T → OpenTransfer σ) (send : T → Nat → List UInt8 → σ → Except ε Unit × σ) :
    Serving T σ → List (FetchRange T) → Prop
  | s, f :: g :: fetches =>
      ((s.fetch open_ send f).reader.carriesOn g.offset = true →
        g.offset < (s.fetch open_ send f).reader.hinted →
        g.transfer = f.transfer ∧ (s.fetch open_ send f).ended ≤ g.offset) ∧
      Streams open_ send (s.fetch open_ send f) (g :: fetches)
  | _, _ => True

section Run

variable {open_ : T → OpenTransfer σ} {send : T → Nat → List UInt8 → σ → Except ε Unit × σ}
  {s : Serving T σ} {f : FetchRange T} {fetches more : List (FetchRange T)}

theorem run_append : s.run open_ send (fetches ++ more) =
    (s.run open_ send fetches).run open_ send more :=
  List.foldl_append

theorem run_askedAhead_iff (hrange : ∀ f ∈ fetches, InRange open_ f) :
    AskedAhead (totals open_) (s.run open_ send fetches).record ↔
      AskedAhead (totals open_) s.record ∧ MarksTrue open_ send s fetches := by
  induction fetches generalizing s with
  | nil => exact (and_iff_left trivial).symm
  | cons f fetches ih =>
      rw [List.forall_mem_cons] at hrange
      show AskedAhead _ ((s.fetch open_ send f).run open_ send fetches).record ↔ _
      rw [ih hrange.2, fetch_askedAhead_iff hrange.1, and_assoc]
      rfl

theorem run_within (hrange : ∀ f ∈ fetches, InRange open_ f)
    (h : HintedWithin (totals open_) s.record) :
    HintedWithin (totals open_) (s.run open_ send fetches).record := by
  induction fetches generalizing s with
  | nil => exact h
  | cons f fetches ih =>
      rw [List.forall_mem_cons] at hrange
      exact ih hrange.2 (fetch_within hrange.1 h)

/-- Fetches that stream one transfer after another find the mark true. -/
theorem Streams.run_askedAhead (hrange : ∀ g ∈ f :: fetches, InRange open_ g)
    (h : AskedAhead (totals open_) s.record)
    (hmark : ∀ byte, f.offset ≤ byte → byte < min (s.reader.carried f.offset).hinted
      (totals open_ f.transfer) → Hinted s.record f.transfer byte)
    (hstreams : Streams open_ send s (f :: fetches)) :
    AskedAhead (totals open_) (s.run open_ send (f :: fetches)).record := by
  induction fetches generalizing s f with
  | nil => exact (fetch_askedAhead send (hrange f List.mem_cons_self) h hmark).1
  | cons g fetches ih =>
      rw [List.forall_mem_cons] at hrange
      obtain ⟨hahead, hbehind⟩ := fetch_askedAhead send hrange.1 h hmark
      refine ih hrange.2 hahead ?_ hstreams.2
      intro byte hstart hend
      by_cases hcarries : (s.fetch open_ send f).reader.carriesOn g.offset = true
      · rw [carried_of_carriesOn hcarries] at hend
        obtain ⟨htransfer, hended⟩ := hstreams.1 hcarries (by omega)
        rw [htransfer] at hend ⊢
        exact hbehind byte (by omega) hend
      · rw [carried_hinted_of_not hcarries] at hend
        omega

/-- On a connection, the window of every piece is hinted before the piece is read exactly
when every fetch finds the mark true, as those that stream one transfer after another do.
Nothing is ever hinted past the end of a stream, nor twice while the fetches of one
transfer follow one another. -/
theorem read_ahead (open_ : T → OpenTransfer σ)
    (send : T → Nat → List UInt8 → σ → Except ε Unit × σ) (bufferLen : Nat) (outside : σ)
    (fetches : List (FetchRange T)) (hrange : ∀ f ∈ fetches, InRange open_ f) :
    (AskedAhead (totals open_) ((Serving.start bufferLen outside).run open_ send fetches).record ↔
      MarksTrue open_ send (.start bufferLen outside) fetches) ∧
    (Streams open_ send (.start bufferLen outside) fetches →
      AskedAhead (totals open_)
        ((Serving.start bufferLen outside).run open_ send fetches).record) ∧
    HintedWithin (totals open_) ((Serving.start bufferLen outside).run open_ send fetches).record ∧
    ∀ before first rest after, fetches = before ++ first :: rest ++ after →
      Onward open_ send first.transfer
        (((Serving.start bufferLen outside).run open_ send before).fetch open_ send first) rest →
      ∃ since, ((Serving.start bufferLen outside).run open_ send (before ++ first :: rest)).record =
          since ++ ((Serving.start bufferLen outside).run open_ send before).record ∧
        HintedOnce since := by
  refine ⟨?_, ?_, run_within hrange fun _ _ h => (not_hinted_nil h).elim, ?_⟩
  · rw [run_askedAhead_iff hrange]
    exact and_iff_right trivial
  · intro hstreams
    cases fetches with
    | nil => exact trivial
    | cons f fetches =>
        refine hstreams.run_askedAhead hrange trivial ?_
        -- The mark of a new connection is at 0, which leaves nothing behind it.
        intro byte hstart hend
        have hnone : (FetchReader.carried (.new bufferLen) f.offset).hinted ≤ f.offset := by
          unfold FetchReader.carried
          split
          · exact Nat.zero_le _
          · exact Nat.le_refl _
        have : (FetchReader.carried (.new bufferLen) f.offset).hinted ≤ byte := Nat.le_trans hnone hstart
        exact absurd (Nat.lt_of_lt_of_le hend (Nat.min_le_left _ _)) (Nat.not_lt.mpr this)
  · intro before first rest after hsplit honward
    subst hsplit
    rw [run_append]
    obtain ⟨since, hrecord, honce, -⟩ := run_onceSince (fun f hf => hrange f (by simp [hf])) honward
      (fetch_onceSince (hrange first (by simp)) OnceSince.start)
    exact ⟨since, hrecord, honce⟩

end Run

/-! ## Two streams on one connection -/

/-- A stream of eight zeros. -/
def eightBytes : OpenTransfer Unit where
  layout := ⟨[8], .uint8, .uint8, 8, {}, .contiguous 0 8⟩
  dataset := ⟨fun _ _ s => s, fun _ len s => (.ok (Vector.replicate len 0), s)⟩
  fits := by decide

example : SelectionLayout.resolve ⟨false, false⟩ [8] .uint8 [] {} = .ok eightBytes.layout := by
  decide

/-- Two streams, from which the first four bytes are fetched in turn. -/
def inTurn : List (FetchRange Bool) := [⟨false, 0, 4⟩, ⟨true, 0, 4⟩]

def inTurnRecord : List (Request Bool) :=
  ((Serving.start 4 ()).run (fun _ => eightBytes)
    (fun _ _ _ s => ((.ok () : Except Empty Unit), s)) inTurn).record

theorem inTurnRecord_eq :
    inTurnRecord = [.readRange true 0 4, .readRange false 0 4, .willNeed false 0 8] := by
  decide

/-- The second stream is never hinted: the mark the first one left stands at its end. -/
theorem second_stream_not_hinted : (∀ f ∈ inTurn, InRange (fun _ => eightBytes) f) ∧
    ¬ AskedAhead (totals fun _ : Bool => eightBytes) inTurnRecord := by
  constructor
  · unfold InRange
    decide
  · intro h
    rw [inTurnRecord_eq] at h
    obtain ⟨request, hmem, hhints⟩ := h.1 0 (Nat.le_refl 0) (by decide)
    rcases List.mem_cons.mp hmem with rfl | hmem
    · exact hhints
    · obtain rfl := List.mem_singleton.mp hmem
      cases hhints.1

/-- One stream in two fetches is asked ahead. -/
theorem read_ahead_one_stream : AskedAhead (totals fun _ : Unit => eightBytes)
    ((Serving.start 4 ()).run (fun _ => eightBytes)
      (fun _ _ _ s => ((.ok () : Except Empty Unit), s)) [⟨(), 0, 4⟩, ⟨(), 4, 4⟩]).record := by
  refine (read_ahead _ _ 4 () [⟨(), 0, 4⟩, ⟨(), 4, 4⟩] ?_).2.1 ?_
  · unfold InRange
    decide
  · exact ⟨fun _ _ => ⟨rfl, by decide⟩, trivial⟩

end Aex
