import TongjiCode.PieceTree.NewPieces

/-!
# Piece tree: the invariant

`Core T L` holds also while an operation runs: the tree is right and holds the nodes `L`, every piece lies
in its buffer, at most one piece ends where the change buffer ends.  Between operations no piece is empty,
no `\r\n` is split between two pieces (`Good`), and the line count, the length and the search cache are
right (`Inv`).
-/

open List

namespace TongjiCode.PieceTree

open JsString

abbrev Nodes := List (Nat × Piece)

def texts (bs : List StringBuffer) (L : Nodes) : List JsString := L.map fun i => content bs i.2

def docText (bs : List StringBuffer) (L : Nodes) : JsString := (texts bs L).flatten

structure Core (T : PieceTreeBase) (L : Nodes) : Prop where
  holds : Holds T.root L
  fresh : ∀ i ∈ L, i.1 < T.nextId
  buffers : BuffersOk T
  valid : ∀ i ∈ L, PieceOk T.buffers i.2
  tail : tails T.lastChangeBufferPos (L.map Prod.snd) ≤ 1
  noCr : T.shouldCheckCRLF = false → ∀ b ∈ T.buffers, carriageReturn ∉ b.buffer

def Positive (L : Nodes) : Prop := ∀ i ∈ L, 0 < i.2.length

/-- The invariant between operations, without the counts and the cache. -/
structure Good (T : PieceTreeBase) (L : Nodes) : Prop extends Core T L where
  positive : Positive L
  joined : Joined none (texts T.buffers L)

/-- What no operation on the nodes changes. -/
structure Frame (T T' : PieceTreeBase) : Prop where
  eol : T'.eol = T.eol
  eolNormalized : T'.eolNormalized = T.eolNormalized
  searchCache : T'.searchCache = T.searchCache
  lastVisitedLine : T'.lastVisitedLine = T.lastVisitedLine
  nextId : T.nextId ≤ T'.nextId

theorem Frame.refl (T : PieceTreeBase) : Frame T T := ⟨rfl, rfl, rfl, rfl, Nat.le_refl _⟩

theorem Frame.trans {T T' T'' : PieceTreeBase} (h : Frame T T') (h' : Frame T' T'') : Frame T T'' :=
  ⟨h'.eol.trans h.eol, h'.eolNormalized.trans h.eolNormalized, h'.searchCache.trans h.searchCache,
    h'.lastVisitedLine.trans h.lastVisitedLine, Nat.le_trans h.nextId h'.nextId⟩

theorem Frame.shouldCheckCRLF {T T' : PieceTreeBase} (h : Frame T T') : T'.shouldCheckCRLF = T.shouldCheckCRLF := by
  rw [PieceTreeBase.shouldCheckCRLF, PieceTreeBase.shouldCheckCRLF, h.eol, h.eolNormalized]

/-! ## Lists of nodes -/

section

variable (bs : List StringBuffer)
include bs

@[simp] theorem texts_nil : texts bs [] = [] := rfl

@[simp] theorem texts_append (L L' : Nodes) : texts bs (L ++ L') = texts bs L ++ texts bs L' := by
  simp [texts]

@[simp] theorem texts_cons (i : Nat × Piece) (L : Nodes) :
    texts bs (i :: L) = content bs i.2 :: texts bs L := rfl

@[simp] theorem docText_nil : docText bs [] = [] := rfl

@[simp] theorem docText_append (L L' : Nodes) :
    docText bs (L ++ L') = docText bs L ++ docText bs L' := by
  simp [docText]

@[simp] theorem docText_cons (i : Nat × Piece) (L : Nodes) :
    docText bs (i :: L) = content bs i.2 ++ docText bs L := by
  simp [docText]

end

variable (last : BufferCursor)

@[simp] theorem tails_append (l l' : List Piece) :
    tails last (l ++ l') = tails last l + tails last l' := by
  simp [tails]

@[simp] theorem tails_cons (p : Piece) (l : List Piece) :
    tails last (p :: l) = tails last l + if isTail last p then 1 else 0 := countP_cons

@[simp] theorem tails_nil : tails last [] = 0 := rfl

variable {bs : List StringBuffer} {L L' : Nodes}

theorem joined_texts_append : Joined none (texts bs (L ++ L')) ↔
    Joined none (texts bs L) ∧ Joined none (texts bs L') ∧ ¬ Junction (docText bs L) (docText bs L') := by
  rw [texts_append, joined_append_iff]
  rfl

variable {id : Nat}

theorem joined_texts_cons {p : Piece} :
    Joined none (texts bs ((id, p) :: L)) ↔ ¬ Junction (content bs p) (docText bs L) ∧ Joined none (texts bs L) := by
  rw [texts_cons, joined_cons_iff]
  rfl

theorem texts_grown {bs bs' : List StringBuffer} (h : Grown bs bs') (hL : ∀ i ∈ L, PieceOk bs i.2) :
    texts bs' L = texts bs L := map_congr_left fun i hi => (h i.2 (hL i hi)).2

theorem docText_length (hL : ∀ i ∈ L, PieceOk bs i.2) :
    (docText bs L).length = totalLength L := by
  induction L with
  | nil => rfl
  | cons i L ih =>
    rw [docText_cons, length_append, totalLength_cons, (hL i mem_cons_self).length,
      ih fun j hj => hL j (mem_cons_of_mem _ hj)]

theorem positive_append : Positive (L ++ L') ↔ Positive L ∧ Positive L' := by
  simp only [Positive, forall_mem_append]

theorem positive_cons {i : Nat × Piece} : Positive (i :: L) ↔ 0 < i.2.length ∧ Positive L := by
  simp only [Positive, forall_mem_cons]

theorem forall_mem_middle {P : Nat × Piece → Prop} {l₁ l₂ : Nodes} {i : Nat × Piece} :
    (∀ j ∈ l₁ ++ i :: l₂, P j) ↔ (∀ j ∈ l₁, P j) ∧ P i ∧ ∀ j ∈ l₂, P j := by
  simp only [forall_mem_append, forall_mem_cons]

/-! ## Changes of the tree -/

section Ops

variable {T : PieceTreeBase} {l₁ l₂ : Nodes} {id : Nat} {p q : Piece}

theorem Core.pieceOf (h : Core T (l₁ ++ (id, p) :: l₂)) : T.pieceOf id = p := by
  rw [PieceTreeBase.pieceOf, h.holds.pieceOf]
  rfl

theorem Core.withRoot (h : Core T L) {root : Tree TreeNode} {n : Nat} (hholds : Holds root L')
    (hfresh : ∀ i ∈ L', i.1 < n) (hvalid : ∀ i ∈ L', PieceOk T.buffers i.2)
    (htail : tails T.lastChangeBufferPos (L'.map Prod.snd) ≤ 1) : Core { T with root := root, nextId := n } L' :=
  ⟨hholds, hfresh, ⟨h.buffers.nonempty, h.buffers.ok, h.buffers.last⟩, hvalid, htail, h.noCr⟩

theorem Core.nextId_not_mem (h : Core T L) : T.nextId ∉ L.map Prod.fst := by
  intro hmem
  obtain ⟨i, hi, heq⟩ := mem_map.mp hmem
  have := h.fresh i hi
  omega

theorem Core.withNode (h : Core T (l₁ ++ l₂)) (hq : PieceOk T.buffers q) {root : Tree TreeNode}
    (hholds : Holds root (l₁ ++ (T.nextId, q) :: l₂))
    (htail : tails T.lastChangeBufferPos ((l₁ ++ l₂).map Prod.snd) + tails T.lastChangeBufferPos [q] ≤ 1) :
    Core { T with root := root, nextId := T.nextId + 1 } (l₁ ++ (T.nextId, q) :: l₂) := by
  have hfresh := forall_mem_append.mp h.fresh
  have hvalid := forall_mem_append.mp h.valid
  refine h.withRoot hholds ?_ (forall_mem_middle.mpr ⟨hvalid.1, hq, hvalid.2⟩) ?_
  · refine forall_mem_middle.mpr ⟨fun i hi => ?_, Nat.lt_succ_self _, fun i hi => ?_⟩
    · exact Nat.lt_succ_of_lt (hfresh.1 i hi)
    · exact Nat.lt_succ_of_lt (hfresh.2 i hi)
  · simp only [map_append, map_cons, tails_append, tails_cons, tails_nil] at htail ⊢
    omega

section

variable (h : Core T (l₁ ++ (id, p) :: l₂)) (hq : PieceOk T.buffers q)
include h hq

theorem Core.replacePiece {sizeDelta lfDelta : Int} (hdelta : q.metadata = p.metadata + (sizeDelta, lfDelta))
    (htail : isTail T.lastChangeBufferPos q = true → isTail T.lastChangeBufferPos p = true) :
    Core (T.replacePiece id q sizeDelta lfDelta) (l₁ ++ (id, q) :: l₂) := by
  have hfresh := forall_mem_middle.mp h.fresh
  have hvalid := forall_mem_middle.mp h.valid
  have htails := h.tail
  refine h.withRoot (h.holds.changePiece hdelta) (forall_mem_middle.mpr ⟨hfresh.1, hfresh.2.1, hfresh.2.2⟩)
    (forall_mem_middle.mpr ⟨hvalid.1, hq, hvalid.2.2⟩) ?_
  simp only [map_append, map_cons, tails_append, tails_cons] at htails ⊢
  by_cases hq : isTail T.lastChangeBufferPos q = true
  · rw [if_pos (htail hq)] at htails
    rw [if_pos hq]
    exact htails
  · rw [if_neg hq]
    omega

section

variable (htail : tails T.lastChangeBufferPos ((l₁ ++ (id, p) :: l₂).map Prod.snd) + tails T.lastChangeBufferPos [q] ≤ 1)
include htail

theorem Core.rbInsertRight :
    Core (T.rbInsertRight (some id) q).1 (l₁ ++ (id, p) :: (T.nextId, q) :: l₂) := by
  have hholds : Holds (T.rbInsertRight (some id) q).1.root (l₁ ++ (id, p) :: (T.nextId, q) :: l₂) :=
    h.holds.insertRight rfl h.nextId_not_mem
  rw [append_cons] at h htail hholds ⊢
  exact h.withNode hq hholds htail

theorem Core.rbInsertLeft :
    Core (T.rbInsertLeft (some id) q).1 (l₁ ++ (T.nextId, q) :: (id, p) :: l₂) :=
  h.withNode hq (h.holds.insertLeft rfl h.nextId_not_mem) htail

end

end

theorem Core.rbDelete (h : Core T (l₁ ++ (id, p) :: l₂)) : Core (T.rbDelete id) (l₁ ++ l₂) := by
  have hfresh := forall_mem_middle.mp h.fresh
  have hvalid := forall_mem_middle.mp h.valid
  have htails := h.tail
  refine h.withRoot h.holds.deleteNode (forall_mem_append.mpr ⟨hfresh.1, hfresh.2.2⟩)
    (forall_mem_append.mpr ⟨hvalid.1, hvalid.2.2⟩) ?_
  simp only [map_append, map_cons, tails_append, tails_cons] at htails ⊢
  omega

end Ops

def startOf : Nodes → Nat → Option Nat
  | [], _ => none
  | i :: L, id => if i.1 = id then some 0 else (startOf L id).map (· + i.2.length)

@[simp] theorem startOf_nil (id : Nat) : startOf [] id = none := by
  rw [startOf]

/-! ## Several new nodes -/

/-- Pieces under ids from `n` on. -/
def number (n : Nat) : List Piece → Nodes
  | [] => []
  | p :: pieces => (n, p) :: number (n + 1) pieces

variable (pieces : List Piece)

theorem number_snd : ∀ n, (number n pieces).map Prod.snd = pieces := by
  induction pieces with
  | nil => intro n; rfl
  | cons p pieces ih => intro n; rw [number, map_cons, ih]

theorem texts_number (bs : List StringBuffer) (n : Nat) (pieces : List Piece) :
    texts bs (number n pieces) = pieces.map (content bs) := by
  rw [texts, ← number_snd pieces n, map_map, number_snd]
  rfl

section Several

variable {l₁ l₂ : Nodes} {id : Nat} {p : Piece}

theorem rbInsertRight_frame (T : PieceTreeBase) (node : Option Nat) (q : Piece) : Frame T (T.rbInsertRight node q).1 :=
  ⟨rfl, rfl, rfl, rfl, Nat.le_succ _⟩

theorem rbInsertLeft_frame (T : PieceTreeBase) (node : Option Nat) (q : Piece) : Frame T (T.rbInsertLeft node q).1 :=
  ⟨rfl, rfl, rfl, rfl, Nat.le_succ _⟩

theorem replacePiece_frame (T : PieceTreeBase) (node : Nat) (q : Piece) (d d' : Int) : Frame T (T.replacePiece node q d d') :=
  ⟨rfl, rfl, rfl, rfl, Nat.le_refl _⟩

theorem rbDelete_frame (T : PieceTreeBase) (node : Nat) : Frame T (T.rbDelete node) := ⟨rfl, rfl, rfl, rfl, Nat.le_refl _⟩

theorem insertPiecesRight_frame : ∀ (T : PieceTreeBase) (node : Option Nat),
    Frame T (T.insertPiecesRight node pieces).1 ∧ (T.insertPiecesRight node pieces).1.buffers = T.buffers ∧
      (T.insertPiecesRight node pieces).1.lastChangeBufferPos = T.lastChangeBufferPos := by
  induction pieces with
  | nil => intro T node; exact ⟨Frame.refl T, rfl, rfl⟩
  | cons q pieces ih =>
    intro T node
    obtain ⟨h1, h2, h3⟩ := ih (T.rbInsertRight node q).1 (some T.nextId)
    exact ⟨(rbInsertRight_frame T node q).trans h1, h2, h3⟩

theorem insertPiecesLeft_frame : ∀ (T : PieceTreeBase) (node : Option Nat),
    Frame T (T.insertPiecesLeft node pieces).1 ∧ (T.insertPiecesLeft node pieces).1.buffers = T.buffers := by
  induction pieces with
  | nil => intro T node; exact ⟨Frame.refl T, rfl⟩
  | cons q pieces ih =>
    intro T node
    obtain ⟨h1, h2⟩ := ih (T.rbInsertLeft node q).1 (some T.nextId)
    exact ⟨(rbInsertLeft_frame T node q).trans h1, h2⟩

theorem Core.insertPiecesRight : ∀ {T : PieceTreeBase} {l₁ : Nodes} {id : Nat} {p : Piece},
    Core T (l₁ ++ (id, p) :: l₂) → (∀ q ∈ pieces, PieceOk T.buffers q) →
    tails T.lastChangeBufferPos ((l₁ ++ (id, p) :: l₂).map Prod.snd) + tails T.lastChangeBufferPos pieces ≤ 1 →
    Core (T.insertPiecesRight (some id) pieces).1 (l₁ ++ (id, p) :: (number T.nextId pieces ++ l₂)) := by
  induction pieces with
  | nil => intro T l₁ id p h _ _; exact h
  | cons q pieces ih =>
    intro T l₁ id p h hvalid htail
    obtain ⟨hq, hvalid⟩ := forall_mem_cons.mp hvalid
    simp only [map_append, map_cons, tails_append, tails_cons] at htail
    have hone := h.rbInsertRight hq (by
      simp only [map_append, map_cons, tails_append, tails_cons, tails_nil]
      omega)
    have hrest : Core (T.rbInsertRight (some id) q).1 ((l₁ ++ [(id, p)]) ++ (T.nextId, q) :: l₂) := by
      rw [append_assoc]
      exact hone
    have := ih hrest hvalid (by
      show tails T.lastChangeBufferPos _ + tails T.lastChangeBufferPos _ ≤ 1
      simp only [map_append, map_cons, map_nil, tails_append, tails_cons, tails_nil]
      omega)
    rw [append_assoc] at this
    exact this

theorem Core.insertPiecesLeft : ∀ {T : PieceTreeBase} {l₂ : Nodes} {id : Nat} {p : Piece},
    Core T (l₁ ++ (id, p) :: l₂) → (∀ q ∈ pieces, PieceOk T.buffers q) →
    tails T.lastChangeBufferPos ((l₁ ++ (id, p) :: l₂).map Prod.snd) + tails T.lastChangeBufferPos pieces ≤ 1 →
    Core (T.insertPiecesLeft (some id) pieces).1 (l₁ ++ ((number T.nextId pieces).reverse ++ (id, p) :: l₂)) ∧
      (T.insertPiecesLeft (some id) pieces).2 =
        ((number T.nextId pieces).reverse ++ (id, p) :: l₂).head?.map Prod.fst := by
  induction pieces with
  | nil => intro T l₂ id p h _ _; exact ⟨h, rfl⟩
  | cons q pieces ih =>
    intro T l₂ id p h hvalid htail
    obtain ⟨hq, hvalid⟩ := forall_mem_cons.mp hvalid
    simp only [map_append, map_cons, tails_append, tails_cons] at htail
    have hone := h.rbInsertLeft hq (by
      simp only [map_append, map_cons, tails_append, tails_cons, tails_nil]
      omega)
    have := ih hone hvalid (by
      show tails T.lastChangeBufferPos _ + tails T.lastChangeBufferPos _ ≤ 1
      simp only [map_append, map_cons, tails_append, tails_cons]
      omega)
    rw [number, reverse_cons, append_assoc]
    exact this

end Several

/-! ## New pieces in the buffers -/

theorem Core.createNewPieces {T : PieceTreeBase} (h : Core T L) (text : JsString) (hne : text ≠ [])
    (hcr : T.shouldCheckCRLF = false → carriageReturn ∉ text) :
    let T' := (T.createNewPieces text).1
    let pieces := (T.createNewPieces text).2
    Core T' L ∧ Frame T T' ∧ T'.nextId = T.nextId ∧ NewPieces T text T' pieces ∧
      tails T'.lastChangeBufferPos (L.map Prod.snd) + tails T'.lastChangeBufferPos pieces ≤ 1 := by
  intro T' pieces
  have hnew : NewPieces T text T' pieces := createNewPieces_spec h.buffers hne
  obtain ⟨buffers, last, hT'⟩ := hnew.frame
  have hframe : Frame T T' := by
    rw [hT']
    exact ⟨rfl, rfl, rfl, rfl, Nat.le_refl _⟩
  have hroot : T'.root = T.root := by rw [hT']
  have hid : T'.nextId = T.nextId := by rw [hT']
  have htails : tails T'.lastChangeBufferPos (L.map Prod.snd) + tails T'.lastChangeBufferPos pieces ≤ 1 := by
    refine hnew.tails _ ?_ h.tail
    intro p hp
    obtain ⟨i, hi, rfl⟩ := mem_map.mp hp
    exact h.valid i hi
  refine ⟨⟨?_, ?_, hnew.buffersOk, ?_, ?_, ?_⟩, hframe, hid, hnew, htails⟩
  · rw [hroot]
    exact h.holds
  · rw [hid]
    exact h.fresh
  · intro i hi
    exact (hnew.grown _ (h.valid i hi)).1
  · omega
  · rw [hframe.shouldCheckCRLF]
    intro hcheck
    exact hnew.noCr (h.noCr hcheck) (hcr hcheck)

/-! ## Where nodes start -/

theorem startOf_append (L L' : Nodes) (id : Nat) :
    startOf (L ++ L') id = (startOf L id).or ((startOf L' id).map (· + totalLength L)) := by
  induction L with
  | nil => simp [startOf, totalLength]
  | cons i L ih =>
    rw [cons_append, startOf, startOf, ih]
    split
    · rfl
    · cases startOf L id with
      | some o => rfl
      | none =>
        cases startOf L' id with
        | none => rfl
        | some o =>
          simp only [totalLength_cons, Option.map_some, Option.map_none, Option.none_or, Option.some.injEq]
          omega

theorem startOf_eq_none : startOf L id = none ↔ id ∉ L.map Prod.fst := by
  induction L with
  | nil => simp [startOf]
  | cons i L ih =>
    rw [startOf, map_cons, mem_cons, not_or]
    split
    · next h => simp [h]
    · next h => rw [Option.map_eq_none_iff, ih]; exact ⟨fun h' => ⟨fun heq => h heq.symm, h'⟩, fun h' => h'.2⟩

theorem startOf_eq_some {id o : Nat} (h : startOf L id = some o) :
    ∃ l₁ p l₂, L = l₁ ++ (id, p) :: l₂ ∧ totalLength l₁ = o := by
  induction L generalizing o with
  | nil => cases h
  | cons i L ih =>
    rw [startOf] at h
    split at h
    · next heq =>
      refine ⟨[], i.2, L, ?_, Option.some.inj h⟩
      rw [← heq]
      rfl
    · obtain ⟨o', ho', rfl⟩ := Option.map_eq_some_iff.mp h
      obtain ⟨l₁, p, l₂, rfl, rfl⟩ := ih ho'
      exact ⟨i :: l₁, p, l₂, rfl, by rw [totalLength_cons, Nat.add_comm]⟩

theorem startOf_middle {l₁ l₂ : Nodes} {p : Piece} (h : id ∉ l₁.map Prod.fst) :
    startOf (l₁ ++ (id, p) :: l₂) id = some (totalLength l₁) := by
  rw [startOf_append, startOf_eq_none.mpr h, startOf, if_pos rfl]
  simp

/-- A node that is still in the tree starts where it did. -/
def Stays (L L' : Nodes) (id : Nat) : Prop := startOf L' id = none ∨ startOf L' id = startOf L id

/-! ## The search cache -/

/-- The entry of the cache, if any, is about a node of the tree and its start. -/
def CacheOk (L : Nodes) (cache : Option CacheEntry) : Prop :=
  ∀ entry, cache = some entry → startOf L entry.node = some entry.nodeStartOffset

/-- An entry may be about a node that has left the tree. -/
def CacheWeak (L : Nodes) (cache : Option CacheEntry) : Prop :=
  ∀ entry, cache = some entry → startOf L entry.node = none ∨ startOf L entry.node = some entry.nodeStartOffset

/-- The invariant between operations. -/
structure Inv (T : PieceTreeBase) (L : Nodes) : Prop extends Good T L where
  cache : CacheOk L T.searchCache
  length : T.length = (docText T.buffers L).length
  lineCnt : T.lineCnt = 1 + eolCount (docText T.buffers L)

theorem find_eq_none_iff {root : Tree TreeNode} (h : Holds root L) (id : Nat) :
    find root id = none ↔ startOf L id = none := by
  constructor
  · intro hfind
    by_contra hstart
    obtain ⟨o, ho⟩ := Option.ne_none_iff_exists'.mp hstart
    obtain ⟨l₁, p, l₂, rfl, -⟩ := startOf_eq_some ho
    obtain ⟨z, hz, -⟩ := h.find
    rw [hz] at hfind
    cases hfind
  · intro hstart
    by_contra hfind
    obtain ⟨z, hz⟩ := Option.ne_none_iff_exists'.mp hfind
    obtain ⟨hroot, hid⟩ := Tree.locate_some root hz
    have hitems := items_root z
    have hroot : z.root = root := hroot
    rw [hroot, h.items] at hitems
    refine startOf_eq_none.mp hstart ?_
    rw [hitems]
    have hid : z.val.id = id := by simpa using hid
    simp [TreeNode.item, hid]

section Cache

variable {T : PieceTreeBase} {L : Nodes}

theorem validate_cache (offset : Nat) (T : PieceTreeBase) : ∃ cache, T.validate offset = { T with searchCache := cache } ∧
    ∀ entry, cache = some entry → T.searchCache = some entry ∧ find T.root entry.node ≠ none ∧
      entry.nodeStartOffset < offset := by
  rw [PieceTreeBase.validate]
  split
  · next hcache => exact ⟨none, by rw [← hcache], by simp⟩
  · next entry hcache =>
    split
    · exact ⟨none, rfl, by simp⟩
    · next hkeep =>
      rw [not_or] at hkeep
      refine ⟨some entry, by rw [← hcache], ?_⟩
      intro entry' heq
      obtain rfl := Option.some.inj heq
      exact ⟨hcache, hkeep.1, Nat.lt_of_not_le hkeep.2⟩

theorem Core.withCache (h : Core T L) (cache : Option CacheEntry) (lastVisitedLine : Nat × JsString) (lineCnt length : Nat) :
    Core { T with searchCache := cache, lastVisitedLine, lineCnt, length } L :=
  ⟨h.holds, h.fresh, ⟨h.buffers.nonempty, h.buffers.ok, h.buffers.last⟩, h.valid, h.tail, h.noCr⟩

theorem total_snd (hvalid : ∀ i ∈ L, PieceOk bs i.2) (hpos : Positive L) (hjoined : Joined none (texts bs L)) :
    (total L).2 = eolCount (docText bs L) := by
  rw [docText, eolCount_flatten hjoined]
  clear hjoined
  induction L with
  | nil => rfl
  | cons i L ih =>
    obtain ⟨hi, hL⟩ := forall_mem_cons.mp hvalid
    obtain ⟨hipos, hLpos⟩ := positive_cons.mp hpos
    have hcnt := hi.lineFeedCnt hipos
    rw [total_cons, Prod.snd_add, ih hL hLpos, texts_cons, map_cons, sum_cons, ← hcnt]
    simp [Piece.metadata]

theorem computeBufferMetadata_eq (T : PieceTreeBase) : ∃ cache, T.computeBufferMetadata =
    { T with
      searchCache := cache
      lineCnt := (1 + calculateLF T.root).toNat
      length := (calculateSize T.root).toNat } ∧
    ∀ entry, cache = some entry → T.searchCache = some entry ∧ find T.root entry.node ≠ none :=  by
  obtain ⟨cache, heq, hcache⟩ := validate_cache (calculateSize T.root).toNat
    { T with lineCnt := (1 + calculateLF T.root).toNat, length := (calculateSize T.root).toNat }
  exact ⟨cache, heq, fun entry hentry => ⟨(hcache entry hentry).1, (hcache entry hentry).2.1⟩⟩

/-- `computeBufferMetadata` ends every operation. -/
theorem Good.computeBufferMetadata (h : Good T L) (hweak : CacheWeak L T.searchCache) :
    Inv T.computeBufferMetadata L := by
  have htotal := calculate_eq h.holds.ok.good
  rw [h.holds.items] at htotal
  obtain ⟨cache, heq, hcache⟩ := computeBufferMetadata_eq T
  rw [heq]
  refine ⟨⟨h.toCore.withCache _ _ _ _, h.positive, h.joined⟩, ?_, ?_, ?_⟩
  · intro entry hentry
    obtain ⟨hold, hlive⟩ := hcache entry hentry
    rcases hweak entry hold with hnone | hsome
    · exact (hlive ((find_eq_none_iff h.holds _).mpr hnone)).elim
    · exact hsome
  · have := congrArg Prod.fst htotal
    rw [total_fst] at this
    show (calculateSize T.root).toNat = _
    rw [show calculateSize T.root = (totalLength L : Int) from this, docText_length h.valid]
    rfl
  · have := congrArg Prod.snd htotal
    rw [total_snd h.valid h.positive h.joined] at this
    have hlf : calculateLF T.root = (eolCount (docText T.buffers L) : Int) := this
    show (1 + calculateLF T.root).toNat = 1 + eolCount (docText T.buffers L)
    omega

/-- What `nodeAt` finds, and that the cache is then about this node. -/
theorem Good.nodeAt (h : Good T L) (hcache : CacheOk L T.searchCache) {offset : Nat} (hne : L ≠ [])
    (hle : offset ≤ totalLength L) : ∃ l₁ id p l₂ entry, L = l₁ ++ (id, p) :: l₂ ∧ totalLength l₁ ≤ offset ∧
      offset ≤ totalLength l₁ + p.length ∧ entry.node = id ∧ entry.nodeStartOffset = totalLength l₁ ∧
      T.nodeAt offset = ({ T with searchCache := some entry },
        some ⟨id, offset - totalLength l₁, totalLength l₁⟩) := by
  rw [PieceTreeBase.nodeAt]
  cases hget : T.cacheGet offset with
  | some entry =>
    obtain ⟨hentry, hrange⟩ := Option.filter_eq_some_iff.mp hget
    rw [Bool.and_eq_true, decide_eq_true_eq, decide_eq_true_eq] at hrange
    obtain ⟨l₁, p, l₂, hL, hstart⟩ := startOf_eq_some (hcache entry hentry)
    subst hL
    rw [h.toCore.pieceOf, ← hstart] at hrange
    refine ⟨l₁, entry.node, p, l₂, entry, rfl, hrange.1, hrange.2, rfl, hstart.symm, ?_⟩
    dsimp only
    rw [← hentry, hstart]
  | none =>
    have hroot : T.root ≠ .nil := by
      intro hnil
      apply hne
      rw [← h.holds.items, hnil]
      rfl
    have hitems := h.holds.items
    obtain ⟨l₁, id, p, l₂, hL, h1, h2, hres⟩ := nodeAtLoop_spec T.root offset 0 h.holds.ok.good hroot (by rwa [hitems])
    rw [Nat.zero_add] at hres
    rw [hitems] at hL
    refine ⟨l₁, id, p, l₂, ⟨id, totalLength l₁, none⟩, hL, h1, h2, rfl, rfl, ?_⟩
    rw [show ((0 : Nat) : Int) = 0 from rfl] at hres
    rw [hres]

/-! ## Lines in the cache -/

/-- The line number of an entry is that of the start of its node. -/
def CacheLines (text : JsString) (cache : Option CacheEntry) : Prop :=
  ∀ entry n, cache = some entry → entry.nodeStartLineNumber = some n → n = 1 + eolCount (text.take entry.nodeStartOffset)

/-- An entry with a line number is an old one, and not about a node behind the offset. -/
def CacheKept (old new : Option CacheEntry) (offset : Nat) : Prop :=
  ∀ entry n, new = some entry → entry.nodeStartLineNumber = some n → old = some entry ∧ entry.nodeStartOffset ≤ offset

theorem CacheLines.kept {A X Y : JsString} {old new : Option CacheEntry} (h : CacheLines (A ++ X) old)
    (hkept : CacheKept old new A.length) : CacheLines (A ++ Y) new := by
  intro entry n hentry hline
  obtain ⟨hold, hle⟩ := hkept entry n hentry hline
  have hn := h entry n hold hline
  rw [take_append_of_le_length hle] at hn ⊢
  exact hn

theorem nodeAt_kept {T : PieceTreeBase} {offset : Nat} {entry : CacheEntry} {pos : NodePosition}
    (h : T.nodeAt offset = ({ T with searchCache := some entry }, some pos)) :
    CacheKept T.searchCache (some entry) offset := by
  intro entry' n hentry hline
  obtain rfl := Option.some.inj hentry
  have hcache := congrArg (fun result => result.1.searchCache) h
  rw [PieceTreeBase.nodeAt] at hcache
  cases hget : T.cacheGet offset with
  | some found =>
    obtain ⟨hfound, hrange⟩ := Option.filter_eq_some_iff.mp hget
    rw [Bool.and_eq_true, decide_eq_true_eq, decide_eq_true_eq] at hrange
    rw [hget] at hcache
    have hold : T.searchCache = some entry := hcache
    rw [hold, Option.some.injEq] at hfound
    rw [hold, hfound]
    exact ⟨rfl, hrange.1⟩
  | none =>
    rw [hget] at hcache
    cases hloop : nodeAtLoop T.root offset 0 with
    | some found =>
      rw [hloop] at hcache
      rw [← Option.some.inj hcache] at hline
      cases hline
    | none =>
      rw [PieceTreeBase.nodeAt, hget] at h
      rw [hloop] at h
      cases (Prod.mk.inj h).2

end Cache

end TongjiCode.PieceTree
