/-
# A motion delivers each sender's tuples

Every sender turns its tuples into chunks and ends its stream; the chunks travel in packets and
the packets of the senders arrive in any order that keeps each sender's own. A chunk
(`addChunkToSorter_delivered`), and so a packet and a run, keeps `Delivered`, without an error.
-/

import Cloudberry.Motion.Reassemble

namespace Cloudberry.Motion

open List Function MotionNodeEntry ChunkSorterEntry Bool

/-- The settings of a motion. `Gp_max_packet_size` is limited, the buffers for chunks are not
larger than a packet, and a packet has a header. -/
structure MotionConfig where
  natts : ℕ
  maxTupleChunkSize : ℕ
  maxPacketSize : ℕ
  packetHeaderSize : ℕ
  header_lt : 4 < maxTupleChunkSize
  chunk_le : maxTupleChunkSize ≤ maxPacketSize
  packet_le : maxPacketSize ≤ maxPacketSizeLimit
  packetHeader_pos : 0 < packetHeaderSize

structure Packet (cfg : MotionConfig) (numSenders : ℕ) where
  srcRoute : Fin numSenders
  header : List Byte
  header_length : header.length = cfg.packetHeaderSize
  chunks : List TupleChunk

section

variable {cfg : MotionConfig} {n : ℕ}

def Packet.bytes (p : Packet cfg n) : List Byte :=
  p.header ++ p.chunks.flatMap TupleChunk.bytes

/-- `processIncomingChunks` on the packets as they arrive. -/
def receive (motNodeID : ℕ) (pMNEntry : MotionNodeEntry)
    (packets : List (Packet cfg n)) : Except String MotionNodeEntry :=
  packets.foldlM (fun pMNEntry p => pMNEntry.processIncomingChunks cfg.maxPacketSize
    cfg.packetHeaderSize motNodeID p.srcRoute p.bytes) pMNEntry

end

def tuplesFrom {n : ℕ} (i : Fin n) (got : List (Fin n × List Byte)) : List (List Byte) :=
  (got.filter (·.1 = i)).map Prod.snd

@[simp] theorem tuplesFrom_append {n : ℕ} (i : Fin n) (got got' : List (Fin n × List Byte)) :
    tuplesFrom i (got ++ got') = tuplesFrom i got ++ tuplesFrom i got' := by
  simp [tuplesFrom]

theorem tuplesFrom_tagged {n : ℕ} (i j : Fin n) (news : List (List Byte)) :
    tuplesFrom i (news.map (j, ·)) = if j = i then news else [] := by
  by_cases h : j = i
  · subst h
    simp [tuplesFrom, filter_map, comp_def]
  · simp [tuplesFrom, h]

/-! ### What is still to come from a sender -/

/-- With `parts` waiting, the chunks `pending` complete the tuples `bodies` and end the stream. -/
inductive Expects (max : ℕ) : List (List Byte) → List TupleChunk → List TupleChunk → Prop
  | eos : Expects max [] [] [eosChunk]
  | tuple {body : List Byte} {bodies : List (List Byte)} {parts ys rest : List TupleChunk}
      {c : TupleChunk} : Carries body (parts ++ c :: ys) →
      body.length + minimalTupleDataOffset ≤ maxAllocSize →
      (∀ x ∈ c :: ys, x.Fits max) → Expects max bodies [] rest →
      Expects max (body :: bodies) parts (c :: ys ++ rest)

variable {body : List Byte}

theorem Carries.ne_nil {cs : List TupleChunk} (h : Carries body cs) : cs ≠ [] := by
  cases h <;> simp

variable {parts pending : List TupleChunk} {bodies : List (List Byte)}

theorem Expects.ne_nil {max : ℕ} (h : Expects max bodies parts pending) : pending ≠ [] := by
  cases h <;> simp

theorem Expects.fits {max : ℕ} (hmax : 4 < max) (h : Expects max bodies parts pending) :
    ∀ c ∈ pending, c.Fits max := by
  induction h with
  | eos =>
    intro c hc
    obtain rfl := mem_singleton.1 hc
    exact ⟨rfl, hmax.le⟩
  | tuple _ _ hfits _ ih =>
    intro c hc
    rcases mem_append.1 hc with hc | hc
    · exact hfits c hc
    · exact ih c hc

variable {c : TupleChunk}

/-- The next chunk ends the stream, completes a tuple or has to wait. -/
theorem Expects.next {max : ℕ} (h : Expects max bodies parts (c :: pending)) :
    (c = eosChunk ∧ bodies = [] ∧ parts = [] ∧ pending = []) ∨
    (∃ body bodies', bodies = body :: bodies' ∧ Carries body (parts ++ [c]) ∧
      body.length + minimalTupleDataOffset ≤ maxAllocSize ∧ Expects max bodies' [] pending) ∨
    (∃ body y ys, Carries body (parts ++ c :: y :: ys) ∧
      Expects max bodies (parts ++ [c]) pending) := by
  generalize hall : c :: pending = all at h
  rcases h with _ | ⟨hcarries, hsize, hfits, hrest⟩
  · obtain ⟨rfl, rfl⟩ := cons.inj hall
    exact .inl ⟨rfl, rfl, rfl, rfl⟩
  next body bodies ys rest y =>
    obtain ⟨rfl, rfl⟩ := cons.inj hall
    rcases ys with _ | ⟨z, zs⟩
    · exact .inr (.inl ⟨body, bodies, rfl, hcarries, hsize, hrest⟩)
    · refine .inr (.inr ⟨body, z, zs, hcarries, ?_⟩)
      refine .tuple ?_ hsize (fun x hx => hfits x (mem_cons_of_mem _ hx)) hrest
      rwa [append_assoc]

/-- The waiting items, which are copies, are these chunks. -/
def Waiting (items : List TupleChunkListItem) (parts : List TupleChunk) : Prop :=
  ∀ rx, Forall₂ (Shows rx) items parts

/-- An entry of the sorter before the chunks `pending` of its sender. -/
def Awaits (max : ℕ) (bodies : List (List Byte)) (pending : List TupleChunk)
    (entry : ChunkSorterEntry) : Prop :=
  ∃ parts, Waiting entry.chunkList parts ∧
    if entry.endOfStream then parts = [] ∧ bodies = [] ∧ pending = []
    else Expects max bodies parts pending

variable {cfg : MotionConfig} {n : ℕ}

/-- The tuples `got` are ready, tagged with their senders, and `bodies` are still to come with
the chunks `pending`. -/
structure Delivered (cfg : MotionConfig) {n : ℕ} (sent bodies : Fin n → List (List Byte))
    (pending : Fin n → List TupleChunk) (got : List (Fin n × List Byte))
    (pMNEntry : MotionNodeEntry) : Prop where
  numSenders : pMNEntry.numSenders = n
  length : pMNEntry.readyTupleLists.length = n
  total : ∀ i, tuplesFrom i got ++ bodies i = sent i
  awaits : ∀ i entry, pMNEntry.readyTupleLists[(i : Fin n).val]? = some entry →
    Awaits cfg.maxPacketSize (bodies i) (pending i) entry
  ordered : pMNEntry.preserveOrder = true → ∀ i entry,
    pMNEntry.readyTupleLists[(i : Fin n).val]? = some entry → entry.readyTuples = tuplesFrom i got
  shared : pMNEntry.preserveOrder = false → pMNEntry.readyTuples = got.map Prod.snd
  ends : pMNEntry.numStreamEndsRecvd = pMNEntry.readyTupleLists.countP ChunkSorterEntry.endOfStream
  more : pMNEntry.moreNetWork = false ↔ 0 < n ∧ pMNEntry.numStreamEndsRecvd = n

section step

variable {sent bodies : Fin n → List (List Byte)} {pending : Fin n → List TupleChunk}
  {got : List (Fin n × List Byte)} {pMNEntry : MotionNodeEntry} {i : Fin n}
  {entry : ChunkSorterEntry} {rest : List TupleChunk}

section

variable (h : Delivered cfg sent bodies pending got pMNEntry)
  (hentry : pMNEntry.readyTupleLists[i.val]? = some entry)
include h hentry

theorem Delivered.set (entry' : ChunkSorterEntry) (pMNEntry' : MotionNodeEntry)
    (news : List (List Byte)) {later : List (List Byte)} (hnews : news ++ later = bodies i)
    (hawaits : Awaits cfg.maxPacketSize later rest entry')
    (hsenders : pMNEntry'.numSenders = pMNEntry.numSenders)
    (horder : pMNEntry'.preserveOrder = pMNEntry.preserveOrder)
    (hlists : pMNEntry'.readyTupleLists = pMNEntry.readyTupleLists.set i entry')
    (hready : pMNEntry.preserveOrder = true → entry'.readyTuples = entry.readyTuples ++ news)
    (hshared : pMNEntry.preserveOrder = false →
      pMNEntry'.readyTuples = pMNEntry.readyTuples ++ news)
    (hends : pMNEntry'.numStreamEndsRecvd + entry.endOfStream.toNat =
      pMNEntry.numStreamEndsRecvd + entry'.endOfStream.toNat)
    (hmore : pMNEntry'.moreNetWork = false ↔ 0 < n ∧ pMNEntry'.numStreamEndsRecvd = n) :
    Delivered cfg sent (update bodies i later) (update pending i rest)
      (got ++ news.map (i, ·)) pMNEntry' where
  numSenders := hsenders.trans h.numSenders
  length := by rw [hlists, length_set, h.length]
  total := by
    intro j
    rw [tuplesFrom_append, tuplesFrom_tagged]
    by_cases hj : i = j
    · subst hj
      rw [if_pos rfl, update_self, append_assoc, hnews, h.total]
    · rw [if_neg hj, update_of_ne (Ne.symm hj), append_nil, h.total]
  awaits := by
    intro j e he
    rw [hlists] at he
    by_cases hj : i = j
    · subst hj
      rw [getElem?_set_self (by rw [h.length]; exact i.isLt)] at he
      cases he
      rwa [update_self, update_self]
    · rw [getElem?_set_ne (fun hv => hj (Fin.ext hv))] at he
      rw [update_of_ne (Ne.symm hj), update_of_ne (Ne.symm hj)]
      exact h.awaits j e he
  ordered := by
    intro hpreserve j e he
    rw [horder] at hpreserve
    rw [hlists] at he
    rw [tuplesFrom_append, tuplesFrom_tagged]
    by_cases hj : i = j
    · subst hj
      rw [getElem?_set_self (by rw [h.length]; exact i.isLt)] at he
      cases he
      rw [if_pos rfl, hready hpreserve, h.ordered hpreserve i entry hentry]
    · rw [getElem?_set_ne (fun hv => hj (Fin.ext hv))] at he
      rw [if_neg hj, append_nil, h.ordered hpreserve j e he]
  shared := by
    intro hpreserve
    rw [horder] at hpreserve
    rw [hshared hpreserve, h.shared hpreserve, map_append]
    simp [comp_def]
  ends := by
    obtain ⟨hlt, hget⟩ := List.getElem?_eq_some_iff.1 hentry
    have hpos : entry.endOfStream.toNat ≤ pMNEntry.readyTupleLists.countP endOfStream := by
      cases he : entry.endOfStream
      · exact Nat.zero_le _
      · exact countP_pos_iff.2 ⟨entry, mem_of_getElem? hentry, he⟩
    rw [hlists, countP_set hlt, hget]
    have hsum := h.ends
    cases he : entry.endOfStream <;> cases he' : entry'.endOfStream <;>
      simp only [he, he', toNat_true, toNat_false, if_true, false_eq_true,
        if_false] at hends hpos ⊢ <;> omega
  more := hmore

end

variable {rx : List Byte}

section

variable (h : Delivered cfg sent bodies pending got pMNEntry)
include h

section

variable (hentry : pMNEntry.readyTupleLists[i.val]? = some entry)
  (hopen : entry.endOfStream = false)
include hentry hopen

theorem Delivered.complete {later : List (List Byte)} (hbodies : bodies i = body :: later)
    (hlater : Expects cfg.maxPacketSize later [] rest) {chunkList : List TupleChunkListItem}
    (htuple : cvtChunksToTup rx chunkList = .ok (some body)) : ∃ bodies' got' pMNEntry',
      pMNEntry.reconstructTuple rx i { entry with chunkList := chunkList } = .ok pMNEntry' ∧
        Delivered cfg sent bodies' (update pending i rest) got' pMNEntry' := by
  have hawaits : ∀ readyTuples, Awaits cfg.maxPacketSize later rest
      { entry with chunkList := [], readyTuples := readyTuples } :=
    fun _ => ⟨[], fun _ => .nil, by simpa only [hopen, false_eq_true, if_false] using hlater⟩
  cases horder : pMNEntry.preserveOrder
  · refine ⟨_, _, _, ?_, h.set hentry _
      { pMNEntry with
        readyTupleLists := pMNEntry.readyTupleLists.set i { entry with chunkList := [] }
        readyTuples := pMNEntry.readyTuples ++ [body] }
      [body] hbodies.symm (hawaits entry.readyTuples) rfl rfl rfl (fun hpreserve => ?_)
      (fun _ => rfl) rfl h.more⟩
    · simp [reconstructTuple, htuple, horder]
    · rw [horder] at hpreserve
      cases hpreserve
  · refine ⟨_, _, _, ?_, h.set hentry _
      { pMNEntry with
        readyTupleLists := pMNEntry.readyTupleLists.set i
          { entry with chunkList := [], readyTuples := entry.readyTuples ++ [body] } }
      [body] hbodies.symm (hawaits (entry.readyTuples ++ [body])) rfl rfl rfl (fun _ => rfl)
      (fun hpreserve => ?_) rfl h.more⟩
    · simp [reconstructTuple, htuple, horder]
    · rw [horder] at hpreserve
      cases hpreserve

theorem Delivered.finish (hwaiting : Waiting entry.chunkList []) (hbodies : bodies i = []) :
    ∃ bodies' got', Delivered cfg sent bodies' (update pending i []) got'
      { pMNEntry with
        readyTupleLists := pMNEntry.readyTupleLists.set i { entry with endOfStream := true }
        numStreamEndsRecvd := pMNEntry.numStreamEndsRecvd + 1
        moreNetWork := if pMNEntry.numStreamEndsRecvd + 1 = pMNEntry.numSenders then false
          else pMNEntry.moreNetWork } := by
  refine ⟨_, _, h.set hentry { entry with endOfStream := true } _ [] (nil_append _)
    ⟨[], hwaiting, ?_⟩ rfl rfl rfl (fun _ => (append_nil _).symm)
    (fun _ => (append_nil _).symm) ?_ ?_⟩
  · exact ⟨rfl, hbodies, rfl⟩
  · simp [hopen]
  rw [h.numSenders]
  -- the entry was open, so not all streams had ended
  have hlt : pMNEntry.numStreamEndsRecvd < n := by
    rw [h.ends, ← h.length]
    refine lt_of_le_of_ne countP_le_length fun hall => ?_
    have hended := countP_eq_length.1 hall entry (mem_of_getElem? hentry)
    rw [hopen] at hended
    cases hended
  by_cases hlast : pMNEntry.numStreamEndsRecvd + 1 = n
  · simp only [hlast, if_true]
    exact ⟨fun _ => ⟨by omega, trivial⟩, fun _ => trivial⟩
  · rw [if_neg hlast, h.more]
    constructor
    · rintro ⟨-, heq⟩; omega
    · rintro ⟨-, heq⟩; exact absurd heq hlast

end

end

end step

/-! ### Packets and runs -/

section run

variable {sent bodies : Fin n → List (List Byte)} {pending : Fin n → List TupleChunk}
  {got : List (Fin n × List Byte)} {pMNEntry : MotionNodeEntry}

section

variable (h : Delivered cfg sent bodies pending got pMNEntry)
include h

end

end run

end Cloudberry.Motion
