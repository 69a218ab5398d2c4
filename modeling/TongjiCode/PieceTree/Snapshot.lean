import TongjiCode.PieceTree.Runs

/-!
# Piece tree: snapshots

A snapshot keeps the pieces of a tree and reads their text in the buffers of the living tree.  Buffers only
grow, and what a piece covers stays where it is, with one exception: where `appendToNode` puts a `\n` behind
the last `\r` of the change buffer it takes a line start away, and a piece that ended with this `\r` now ends
behind the `\n`.  Unless this happens to a piece still to be read, the snapshot yields the text of the tree
it was taken from (`snapshot_immutable`).
-/

open List

namespace TongjiCode.PieceTree

open JsString

/-! ## Snapshots -/

structure PieceTreeSnapshot where
  pieces : List Piece
  index : Nat := 0
  bom : JsString
  deriving Repr, DecidableEq

def PieceTreeBase.createSnapshot (T : PieceTreeBase) (bom : JsString) : PieceTreeSnapshot :=
  { pieces := T.root.toList.map TreeNode.piece, bom }

namespace PieceTreeSnapshot

variable (snapshot : PieceTreeSnapshot)

/-- `read()`; `none` is `null`. -/
def read (T : PieceTreeBase) : PieceTreeSnapshot × Option JsString :=
  if snapshot.pieces.length = 0 then
    if snapshot.index = 0 then ({ snapshot with index := snapshot.index + 1 }, some snapshot.bom) else (snapshot, none)
  else
    match snapshot.pieces[snapshot.index]? with
    | none => (snapshot, none)
    | some piece =>
      let value := content T.buffers piece
      ({ snapshot with index := snapshot.index + 1 }, some (if snapshot.index = 0 then snapshot.bom ++ value else value))

def unread : List Piece := snapshot.pieces.drop snapshot.index

end PieceTreeSnapshot

/-! ## Editing and reading in turn -/

inductive SnapshotAction where
  | edit (action : Action)
  | read
  deriving Repr, DecidableEq

/-- The tree, the snapshot, all that was read so far and whether a `read()` has returned `null`. -/
structure Reading where
  tree : PieceTreeBase
  snapshot : PieceTreeSnapshot
  value : JsString := []
  finished : Bool := false
  deriving Repr, DecidableEq

def Reading.step (s : Reading) : SnapshotAction → Option Reading
  | .edit action => (s.tree.step action).map fun tree => { s with tree }
  | .read =>
    match s.snapshot.read s.tree with
    | (snapshot, none) => some { s with snapshot, finished := true }
    | (snapshot, some value) => some { s with snapshot, value := s.value ++ value }

def Reading.run (s : Reading) : List SnapshotAction → Option Reading
  | [] => some s
  | a :: actions => (s.step a).bind fun s => s.run actions

/-- The text of the document after the action. -/
def Doc.applyEdit (d : Doc) : SnapshotAction → Doc
  | .edit action => d.apply action
  | .read => d

/-- Edits in range that are no changes of the line breaks, and reads. -/
def Doc.AcceptsEdits (d : Doc) : List SnapshotAction → Prop
  | [] => True
  | a :: actions =>
    (match a with
    | .edit (.setEOL _) => False
    | .edit action => d.Accepts action
    | .read => True) ∧ (d.applyEdit a).AcceptsEdits actions

/-! ## The edits that spoil a snapshot -/

/-- The insertion goes to the node at the end of the change buffer. -/
def PieceTreeBase.appends (T : PieceTreeBase) (offset : Nat) (value : JsString) : Bool :=
  match (T.nodeAt offset).2 with
  | none => false
  | some ⟨node, _, nodeStartOffset⟩ =>
    isTail T.lastChangeBufferPos (T.pieceOf node) && nodeStartOffset + (T.pieceOf node).length = offset &&
      value.length < averageBufferSize

/-- A `\n` is appended behind the last `\r` of the change buffer, and one of the pieces ends with this `\r`. -/
def Spoils (T : PieceTreeBase) (pieces : List Piece) : SnapshotAction → Prop
  | .edit (.insert offset value _) => T.appends offset value = true ∧ Junction (bufferAt T.buffers 0).buffer value ∧
      ∃ p ∈ pieces, isTail T.lastChangeBufferPos p = true
  | _ => False

instance (T : PieceTreeBase) (pieces : List Piece) : ∀ a, Decidable (Spoils T pieces a)
  | .edit (.insert _ _ _) => inferInstanceAs (Decidable (_ ∧ _))
  | .edit (.delete _ _) | .edit (.setEOL _) | .edit (.getLineContent _) | .edit (.getLineRawContent _ _)
  | .edit (.getValueInRange _ _) | .edit (.getLineCharCode _ _) | .edit (.getCharCode _) | .read =>
    inferInstanceAs (Decidable False)

/-- No action of the list spoils a piece that is still to be read. -/
def Spares (s : Reading) : List SnapshotAction → Prop
  | [] => True
  | a :: actions => ¬ Spoils s.tree s.snapshot.unread a ∧ ∀ s', s.step a = some s' → Spares s' actions

instance decidableSpares : ∀ s actions, Decidable (Spares s actions)
  | _, [] => inferInstanceAs (Decidable True)
  | s, a :: actions =>
    match hs : s.step a with
    | none => decidable_of_iff (¬ Spoils s.tree s.snapshot.unread a)
        ⟨fun h => ⟨h, fun s' hs' => by rw [hs] at hs'; cases hs'⟩, fun h => h.1⟩
    | some s' =>
      have := decidableSpares s' actions
      decidable_of_iff (¬ Spoils s.tree s.snapshot.unread a ∧ Spares s' actions)
        ⟨fun h => ⟨h.1, fun s'' hs'' => Option.some.inj (hs.symm.trans hs'') ▸ h.2⟩, fun h => ⟨h.1, h.2 s' hs⟩⟩

/-! ## The other edits only add to the buffers -/

def Keeps (T T' : PieceTreeBase) : Prop := BuffersOk T → BuffersOk T' ∧ Grown T.buffers T'.buffers

variable {text : JsString}

section Keeps

variable {T T' T'' : PieceTreeBase}

theorem Keeps.trans (h : Keeps T T') (h' : Keeps T' T'') : Keeps T T'' := by
  intro hT
  obtain ⟨hT', hgrown⟩ := h hT
  obtain ⟨hT'', hgrown'⟩ := h' hT'
  refine ⟨hT'', fun p hp => ?_⟩
  obtain ⟨hp', hcontent⟩ := hgrown p hp
  obtain ⟨hp'', hcontent'⟩ := hgrown' p hp'
  exact ⟨hp'', hcontent'.trans hcontent⟩

theorem keeps_of_eq (hbuffers : T'.buffers = T.buffers) (hlast : T'.lastChangeBufferPos = T.lastChangeBufferPos) :
    Keeps T T' := by
  intro hT
  refine ⟨⟨?_, ?_, ?_⟩, ?_⟩
  · rw [hbuffers]
    exact hT.nonempty
  · rw [hbuffers]
    exact hT.ok
  · rw [hbuffers, hlast]
    exact hT.last
  · rw [hbuffers]
    exact fun p hp => ⟨hp, rfl⟩

theorem Keeps.refl (T : PieceTreeBase) : Keeps T T := keeps_of_eq rfl rfl

theorem keeps_createNewPieces (T : PieceTreeBase) (hne : text ≠ []) :
    Keeps T (T.createNewPieces text).1 := by
  intro hT
  have hnew := createNewPieces_spec hT hne
  exact ⟨hnew.buffersOk, hnew.grown⟩

theorem keeps_insertPiecesRight (T : PieceTreeBase) (node : Option Nat) (pieces : List Piece) :
    Keeps T (T.insertPiecesRight node pieces).1 :=
  keeps_of_eq (insertPiecesRight_frame pieces T node).2.1 (insertPiecesRight_frame pieces T node).2.2

theorem keeps_insertPiecesLeft (pieces : List Piece) : ∀ (T : PieceTreeBase) (node : Option Nat),
    Keeps T (T.insertPiecesLeft node pieces).1 := by
  induction pieces with
  | nil => intro T node; exact Keeps.refl T
  | cons p pieces ih =>
    intro T node
    exact (keeps_of_eq rfl rfl : Keeps T (T.rbInsertLeft node p).1).trans (ih _ _)

theorem keeps_replacePiece (T : PieceTreeBase) (node : Nat) (p : Piece) (d d' : Int) : Keeps T (T.replacePiece node p d d') :=
  keeps_of_eq rfl rfl

theorem keeps_deleteNodeTail (T : PieceTreeBase) (node : Nat) (pos : BufferCursor) : Keeps T (T.deleteNodeTail node pos) :=
  keeps_of_eq rfl rfl

theorem keeps_deleteNodeHead (T : PieceTreeBase) (node : Nat) (pos : BufferCursor) : Keeps T (T.deleteNodeHead node pos) :=
  keeps_of_eq rfl rfl

theorem keeps_rbDelete (T : PieceTreeBase) (node : Nat) : Keeps T (T.rbDelete node) := keeps_of_eq rfl rfl

theorem keeps_deleteNodes (T : PieceTreeBase) (nodes : List Nat) : Keeps T (T.deleteNodes nodes) := keeps_of_eq rfl rfl

theorem keeps_validate (T : PieceTreeBase) (offset : Nat) : Keeps T (T.validate offset) := by
  obtain ⟨cache, heq, -⟩ := validate_cache offset T
  rw [heq]
  exact keeps_of_eq rfl rfl

theorem keeps_computeBufferMetadata (T : PieceTreeBase) : Keeps T T.computeBufferMetadata := by
  obtain ⟨cache, heq, -⟩ := computeBufferMetadata_eq T
  rw [heq]
  exact keeps_of_eq rfl rfl

theorem keeps_nodeAt (T : PieceTreeBase) (offset : Nat) : Keeps T (T.nodeAt offset).1 := by
  unfold PieceTreeBase.nodeAt
  split
  · exact Keeps.refl T
  · split
    · exact keeps_of_eq rfl rfl
    · exact Keeps.refl T

theorem keeps_fixCRLF (T : PieceTreeBase) (prev next : Nat) : Keeps T (T.fixCRLF prev next) := by
  unfold PieceTreeBase.fixCRLF
  dsimp only
  generalize hT1 : T.replacePiece prev (T.dropCR (T.pieceOf prev)) (-1) (-1) = T₁
  generalize hT2 : T₁.replacePiece next (T₁.dropLF (T₁.pieceOf next)) (-1) (-1) = T₂
  have h2 : Keeps T T₂ := by
    rw [← hT2, ← hT1]
    exact (keeps_replacePiece _ _ _ _ _).trans (keeps_replacePiece _ _ _ _ _)
  have h3 := h2.trans (keeps_createNewPieces T₂ (show [carriageReturn, lineFeed] ≠ [] by simp))
  have h4 := h3.trans (keeps_insertPiecesRight _ (some prev) ((T₂.createNewPieces [carriageReturn, lineFeed]).2.take 1))
  split
  · split
    · exact (h4.trans (keeps_rbDelete _ _)).trans (keeps_rbDelete _ _)
    · exact h4.trans (keeps_rbDelete _ _)
  · split
    · exact h4.trans (keeps_rbDelete _ _)
    · exact h4

theorem keeps_validateCRLFWithPrevNode (T : PieceTreeBase) (node : Option Nat) :
    Keeps T (T.validateCRLFWithPrevNode node) := by
  unfold PieceTreeBase.validateCRLFWithPrevNode
  split
  · exact Keeps.refl T
  · split
    · split
      · exact Keeps.refl T
      · split
        · exact keeps_fixCRLF _ _ _
        · exact Keeps.refl T
    · exact Keeps.refl T

theorem keeps_validateCRLFWithNextNode (T : PieceTreeBase) (node : Option Nat) :
    Keeps T (T.validateCRLFWithNextNode node) := by
  unfold PieceTreeBase.validateCRLFWithNextNode
  split
  · exact Keeps.refl T
  · split
    · split
      · exact Keeps.refl T
      · split
        · exact keeps_fixCRLF _ _ _
        · exact Keeps.refl T
    · exact Keeps.refl T

theorem adjustCarriageReturnFromNext_buffers (T : PieceTreeBase) (value : JsString) (node : Nat) :
    (T.adjustCarriageReturnFromNext value node).1.buffers = T.buffers ∧
      (T.adjustCarriageReturnFromNext value node).1.lastChangeBufferPos = T.lastChangeBufferPos := by
  unfold PieceTreeBase.adjustCarriageReturnFromNext
  split
  · split
    · exact ⟨rfl, rfl⟩
    · split
      · dsimp only
        split <;> exact ⟨rfl, rfl⟩
      · exact ⟨rfl, rfl⟩
  · exact ⟨rfl, rfl⟩

/-! ## Insertion and deletion -/

theorem keeps_insertContentToNodeLeft (T : PieceTreeBase) {value : JsString} (hne : value ≠ []) (node : Nat) :
    Keeps T (T.insertContentToNodeLeft value node) := by
  unfold PieceTreeBase.insertContentToNodeLeft
  dsimp only
  generalize (T.shouldCheckCRLF && value.getLast? = some carriageReturn && T.startWithLF (some node)) = moveLF
  generalize hT1 : (if moveLF then T.replacePiece node (T.dropLF (T.pieceOf node)) (-1) (-1) else T) = T₁
  have h1 : Keeps T T₁ := by
    rw [← hT1]
    split
    · exact keeps_replacePiece _ _ _ _ _
    · exact Keeps.refl T
  have hne' : (if moveLF then value ++ [lineFeed] else value) ≠ [] := by
    split
    · simp
    · exact hne
  have h2 := h1.trans (keeps_createNewPieces T₁ hne')
  split
  · exact ((h2.trans (keeps_insertPiecesLeft _ _ _)).trans (keeps_validateCRLFWithPrevNode _ _)).trans (keeps_rbDelete _ _)
  · exact (h2.trans (keeps_insertPiecesLeft _ _ _)).trans (keeps_validateCRLFWithPrevNode _ _)

theorem keeps_insertContentToNodeRight (T : PieceTreeBase) {value : JsString} (hne : value ≠ []) (node : Nat) :
    Keeps T (T.insertContentToNodeRight value node) := by
  unfold PieceTreeBase.insertContentToNodeRight
  obtain ⟨hbuffers, hlast⟩ := adjustCarriageReturnFromNext_buffers T value node
  have hne' : (if (T.adjustCarriageReturnFromNext value node).2 then value ++ [lineFeed] else value) ≠ [] := by
    split
    · simp
    · exact hne
  have h1 : Keeps T (T.adjustCarriageReturnFromNext value node).1 := keeps_of_eq hbuffers hlast
  have h2 := h1.trans (keeps_createNewPieces _ hne')
  exact (h2.trans (keeps_insertPiecesRight _ _ _)).trans (keeps_validateCRLFWithPrevNode _ _)

theorem keeps_insertContentIntoNode (T : PieceTreeBase) {value : JsString} (hne : value ≠ []) (node remainder : Nat) :
    Keeps T (T.insertContentIntoNode value node remainder) := by
  unfold PieceTreeBase.insertContentIntoNode
  dsimp only
  generalize (T.shouldCheckCRLF && value.getLast? = some carriageReturn &&
    T.nodeCharCodeAt (T.pieceOf node) remainder = some lineFeed) = moveLF
  generalize hvalue : (if moveLF then value ++ [lineFeed] else value) = value'
  have hne' : value' ≠ [] := by
    rw [← hvalue]
    split
    · simp
    · exact hne
  generalize (T.shouldCheckCRLF && value'.head? = some lineFeed &&
    T.nodeCharCodeAt (T.pieceOf node) (remainder - 1) = some carriageReturn) = moveCR
  generalize hT1 : (if moveCR then T.deleteNodeTail node _ else T.deleteNodeTail node _) = T₁
  have h1 : Keeps T T₁ := by
    rw [← hT1]
    split <;> exact keeps_of_eq rfl rfl
  have hne'' : (if moveCR then carriageReturn :: value' else value') ≠ [] := by
    split
    · simp
    · exact hne'
  have h2 := h1.trans (keeps_createNewPieces T₁ hne'')
  generalize (if moveLF then T.dropLF _ else _) = newRightPiece
  generalize hT3 : (if newRightPiece.length > 0 then _ else _ : PieceTreeBase × Option Nat) = T₃
  have h3 : Keeps T T₃.1 := by
    rw [← hT3]
    split
    · exact h2.trans (keeps_insertPiecesRight _ _ _)
    · exact h2
  have h4 := h3.trans (keeps_insertPiecesRight T₃.1 (some node) (T₁.createNewPieces (if moveCR then carriageReturn :: value' else value')).2)
  split
  · exact h4.trans (keeps_rbDelete _ _)
  · exact h4

theorem keeps_shrinkNode (T : PieceTreeBase) (node : Nat) (start stop : BufferCursor) :
    Keeps T (T.shrinkNode node start stop) := by
  unfold PieceTreeBase.shrinkNode
  refine Keeps.trans ?_ (keeps_validateCRLFWithPrevNode _ _)
  exact keeps_of_eq rfl rfl

theorem keeps_deleteAcrossNodes (T : PieceTreeBase) (offset startNode endNode startRemainder endRemainder : Nat) :
    Keeps T (T.deleteAcrossNodes offset startNode endNode startRemainder endRemainder) := by
  refine Keeps.trans ?_ (keeps_validateCRLFWithNextNode _ _)
  refine Keeps.trans ?_ (keeps_deleteNodes _ _)
  exact ((keeps_deleteNodeTail _ _ _).trans (keeps_validate _ _)).trans (keeps_deleteNodeHead _ _ _)

theorem keeps_delete {offset cnt : Nat} (h : T.delete offset cnt = some T') : Keeps T T' := by
  unfold PieceTreeBase.delete at h
  dsimp only at h
  have h0 : Keeps T { T with lastVisitedLine := (0, []) } := keeps_of_eq rfl rfl
  split at h
  · obtain rfl := Option.some.inj h
    exact h0
  · split at h
    · cases h
    · next T₁ startPosition hstart =>
      have h1 : Keeps T T₁ := by
        have := keeps_nodeAt { T with lastVisitedLine := (0, []) } offset
        rw [hstart] at this
        exact h0.trans this
      split at h
      · cases h
      · next T₂ endPosition hend =>
        have h2 : Keeps T T₂ := by
          have := keeps_nodeAt T₁ (offset + cnt)
          rw [hend] at this
          exact h1.trans this
        refine h2.trans ?_
        split at h
        · split at h
          · split at h
            · obtain rfl := Option.some.inj h
              exact ((keeps_rbDelete _ _).trans (keeps_validateCRLFWithPrevNode _ _)).trans (keeps_computeBufferMetadata _)
            · obtain rfl := Option.some.inj h
              exact (((keeps_deleteNodeHead _ _ _).trans (keeps_validate _ _)).trans
                (keeps_validateCRLFWithPrevNode _ _)).trans (keeps_computeBufferMetadata _)
          · split at h
            · obtain rfl := Option.some.inj h
              exact ((keeps_deleteNodeTail _ _ _).trans (keeps_validateCRLFWithNextNode _ _)).trans
                (keeps_computeBufferMetadata _)
            · obtain rfl := Option.some.inj h
              exact (keeps_shrinkNode _ _ _ _).trans (keeps_computeBufferMetadata _)
        · obtain rfl := Option.some.inj h
          exact (keeps_deleteAcrossNodes _ _ _ _ _ _).trans (keeps_computeBufferMetadata _)

end Keeps

section Insert

variable {T T' : PieceTreeBase} {L : Nodes} {offset : Nat} {value : JsString} {eolNormalized : Bool}

theorem appendToNode_buffers (T : PieceTreeBase) {value : JsString} (hne : value ≠ []) (node : Nat) :
    ∃ b' value', (T.appendToNode node value).buffers = T.buffers.set 0 b' ∧
      b'.buffer = (bufferAt T.buffers 0).buffer ++ value' ∧ value'.head? = value.head? := by
  obtain ⟨hbuffers, -⟩ := adjustCarriageReturnFromNext_buffers T value node
  unfold PieceTreeBase.appendToNode
  dsimp only [PieceTreeBase.replacePiece]
  rw [hbuffers]
  refine ⟨_, _, rfl, rfl, ?_⟩
  split
  · exact head?_append_of_ne_nil _ hne
  · rfl

theorem nodeAt_cache (T : PieceTreeBase) (offset : Nat) : ∃ cache, (T.nodeAt offset).1 = { T with searchCache := cache } := by
  unfold PieceTreeBase.nodeAt
  split
  · exact ⟨T.searchCache, rfl⟩
  · split
    · exact ⟨_, rfl⟩
    · exact ⟨T.searchCache, rfl⟩

theorem nodeAt_with (T : PieceTreeBase) (offset : Nat) (eolNormalized : Bool) (lastVisitedLine : Nat × JsString) :
    { T with eolNormalized, lastVisitedLine }.nodeAt offset =
      ({ (T.nodeAt offset).1 with eolNormalized, lastVisitedLine }, (T.nodeAt offset).2) := by
  have hget : { T with eolNormalized, lastVisitedLine }.cacheGet offset = T.cacheGet offset := rfl
  unfold PieceTreeBase.nodeAt
  rw [hget]
  split
  · rfl
  · dsimp only
    split <;> rfl

/-- The paths of an insertion: to the end of the change buffer, or by new pieces. -/
theorem insert_cases (hne : value ≠ []) (h : T.insert offset value eolNormalized = some T') :
    Keeps T T' ∨ T.appends offset value = true ∧
      ∃ b' value', T'.buffers = T.buffers.set 0 b' ∧ b'.buffer = (bufferAt T.buffers 0).buffer ++ value' ∧
        value'.head? = value.head? := by
  unfold PieceTreeBase.insert at h
  dsimp only at h
  have h0 : Keeps T { T with eolNormalized := T.eolNormalized && eolNormalized, lastVisitedLine := (0, []) } :=
    keeps_of_eq rfl rfl
  split at h
  · split at h
    · cases h
    · next T₁ node remainder nodeStartOffset hnode =>
      have h1 : Keeps T T₁ := by
        have := keeps_nodeAt { T with eolNormalized := T.eolNormalized && eolNormalized, lastVisitedLine := (0, []) } offset
        rw [hnode] at this
        exact h0.trans this
      split at h
      · next happend =>
        right
        obtain rfl := Option.some.inj h
        rw [nodeAt_with] at hnode
        obtain ⟨cache, hcache⟩ := nodeAt_cache T offset
        rw [hcache, Prod.mk.injEq] at hnode
        obtain ⟨rfl, hpos⟩ := hnode
        obtain ⟨hindex, hstop, hend, hlength⟩ := happend
        constructor
        · rw [PieceTreeBase.appends, hpos]
          simp only [isTail, Bool.and_eq_true, decide_eq_true_eq]
          exact ⟨⟨⟨hindex, hstop⟩, hend⟩, hlength⟩
        · obtain ⟨b', value', hbuffers, htext, hhead⟩ := appendToNode_buffers { T with
            eolNormalized := T.eolNormalized && eolNormalized
            lastVisitedLine := (0, [])
            searchCache := cache } hne node
          refine ⟨b', value', ?_, htext, hhead⟩
          obtain ⟨cache', heq, -⟩ := computeBufferMetadata_eq (PieceTreeBase.appendToNode { T with
            eolNormalized := T.eolNormalized && eolNormalized
            lastVisitedLine := (0, [])
            searchCache := cache } node value)
          rw [heq]
          exact hbuffers
      · left
        refine h1.trans ?_
        split at h
        · obtain rfl := Option.some.inj h
          exact ((keeps_insertContentToNodeLeft _ hne _).trans (keeps_validate _ _)).trans (keeps_computeBufferMetadata _)
        · split at h
          · obtain rfl := Option.some.inj h
            exact (keeps_insertContentIntoNode _ hne _ _).trans (keeps_computeBufferMetadata _)
          · obtain rfl := Option.some.inj h
            exact (keeps_insertContentToNodeRight _ hne _).trans (keeps_computeBufferMetadata _)
  · left
    obtain rfl := Option.some.inj h
    refine h0.trans ?_
    exact (((keeps_createNewPieces _ hne).trans (keeps_insertPiecesLeft _ _ _)).trans (keeps_insertPiecesRight _ _ _)).trans
      (keeps_computeBufferMetadata _)

end Insert

/-! ## What a snapshot yields -/

section Steps

variable {T T' : PieceTreeBase} {L L' : Nodes} {pieces : List Piece}

theorem insert_content {offset : Nat} {value : JsString} {eolNormalized : Bool} (h : Inv T L) (h' : Inv T' L')
    (hne : value ≠ []) (hs : T.insert offset value eolNormalized = some T')
    (hspares : ¬ Spoils T pieces (.edit (.insert offset value eolNormalized))) {p : Piece} (hmem : p ∈ pieces)
    (hp : PieceOk T.buffers p) : PieceOk T'.buffers p ∧ content T'.buffers p = content T.buffers p := by
  rcases insert_cases hne hs with hkeeps | ⟨happends, b', value', hbuffers, htext, hhead⟩
  · exact (hkeeps h.buffers).2 p hp
  · have hok : b'.Ok := by
      refine h'.buffers.ok b' ?_
      rw [hbuffers]
      exact mem_of_getElem? (getElem?_set_self (length_pos_iff.mpr h.buffers.nonempty))
    obtain ⟨b, s, e, hlies⟩ := hp
    obtain ⟨⟨b1, hlies1⟩, hcontent⟩ := hlies.set h.buffers.nonempty hok htext (by
      intro hindex hend hjunction
      have hb : bufferAt T.buffers 0 = b := by rw [← hlies.bufferAt, hindex]
      refine hspares ⟨happends, ?_, p, hmem, (h.buffers.isTail_iff hlies).mpr ⟨hindex, hend⟩⟩
      rw [hb]
      exact ⟨hjunction.1, hhead ▸ hjunction.2⟩)
    rw [hbuffers]
    exact ⟨⟨b1, s, e, hlies1⟩, hcontent⟩

/-- An edit that spoils nothing leaves the texts of the pieces. -/
theorem step_content {d : Doc} {a : Action} (h : Holding T d L) (ha : d.Accepts a) (heol : ∀ eol, a ≠ .setEOL eol)
    (hs : T.step a = some T') (hspares : ¬ Spoils T pieces (.edit a)) {p : Piece} (hmem : p ∈ pieces)
    (hp : PieceOk T.buffers p) : PieceOk T'.buffers p ∧ content T'.buffers p = content T.buffers p := by
  obtain ⟨T'', L', hT'', h'⟩ := h.step ha
  obtain rfl : T'' = T' := Option.some.inj (hT''.symm.trans hs)
  cases a with
  | insert offset value eolNormalized => exact insert_content h.inv h'.inv ha.1 hs hspares hmem hp
  | delete offset cnt => exact (keeps_delete hs h.inv.buffers).2 p hp
  | setEOL eol => exact (heol eol rfl).elim
  | getLineContent lineNumber =>
    obtain ⟨cache, line, heq, -⟩ := getLineContent_inv h.inv lineNumber
    obtain rfl := Option.some.inj hs
    rw [heq]
    exact ⟨hp, rfl⟩
  | getLineRawContent lineNumber endOffset =>
    obtain ⟨cache, heq, -⟩ := getLineRawContent_inv h.inv lineNumber endOffset
    obtain rfl := Option.some.inj hs
    rw [heq]
    exact ⟨hp, rfl⟩
  | getValueInRange range eol =>
    obtain rfl := Option.some.inj hs
    exact ⟨hp, rfl⟩
  | getLineCharCode lineNumber index =>
    obtain rfl := Option.some.inj hs
    exact ⟨hp, rfl⟩
  | getCharCode offset =>
    obtain ⟨cache, heq⟩ := nodeAt_cache T offset
    obtain rfl := Option.some.inj hs
    show PieceOk (T.nodeAt offset).1.buffers p ∧ content (T.nodeAt offset).1.buffers p = _
    rw [heq]
    exact ⟨hp, rfl⟩

end Steps

/-- What was read and what is still to be read make up `text`. -/
structure Unspoiled (s : Reading) (text : JsString) : Prop where
  pieces : ∀ p ∈ s.snapshot.unread, PieceOk s.tree.buffers p
  rest : s.value ++ ((if s.snapshot.index = 0 then s.snapshot.bom else []) ++
    (s.snapshot.unread.map (content s.tree.buffers)).flatten) = text
  finished : s.finished = true → max 1 s.snapshot.pieces.length ≤ s.snapshot.index
  bound : s.snapshot.index ≤ max 1 s.snapshot.pieces.length

variable {s : Reading}

theorem Unspoiled.value (h : Unspoiled s text) (hfinished : s.finished = true) :
    s.value = text := by
  have hle := h.finished hfinished
  have hrest := h.rest
  rw [PieceTreeSnapshot.unread, drop_eq_nil_of_le (by omega), if_neg (by omega)] at hrest
  simpa using hrest

theorem Unspoiled.edit (h : Unspoiled s text) {tree : PieceTreeBase}
    (hcontent : ∀ p ∈ s.snapshot.unread, PieceOk tree.buffers p ∧ content tree.buffers p = content s.tree.buffers p) :
    Unspoiled { s with tree } text := by
  refine ⟨fun p hp => (hcontent p hp).1, ?_, h.finished, h.bound⟩
  have : s.snapshot.unread.map (content tree.buffers) = s.snapshot.unread.map (content s.tree.buffers) :=
    map_congr_left fun p hp => (hcontent p hp).2
  show s.value ++ (_ ++ (s.snapshot.unread.map (content tree.buffers)).flatten) = text
  rw [this]
  exact h.rest

/-- A read gives the next part of the text, and `null` when there is none. -/
theorem Unspoiled.read (h : Unspoiled s text) : ∃ s', s.step .read = some s' ∧
    Unspoiled s' text ∧ s'.tree = s.tree ∧ s'.snapshot.pieces = s.snapshot.pieces ∧
      (s.finished = true → s'.finished = true) ∧ (s'.finished = true ∨ s'.snapshot.index = s.snapshot.index + 1) := by
  have hrest := h.rest
  have hfinished := h.finished
  rw [Reading.step, PieceTreeSnapshot.read]
  by_cases hempty : s.snapshot.pieces.length = 0
  · have hunread : ∀ n, s.snapshot.pieces.drop n = [] := by
      intro n
      rw [length_eq_zero_iff.mp hempty, drop_nil]
    rw [if_pos hempty]
    by_cases hindex : s.snapshot.index = 0
    · rw [PieceTreeSnapshot.unread, hunread, if_pos hindex] at hrest
      rw [if_pos hindex]
      refine ⟨_, rfl, ⟨?_, ?_, ?_, ?_⟩, rfl, rfl, id, .inr rfl⟩
      · intro p hp
        rw [PieceTreeSnapshot.unread, hunread] at hp
        cases hp
      · simp only [PieceTreeSnapshot.unread, hunread]
        simpa using hrest
      · intro hfin
        have := hfinished hfin
        omega
      · dsimp only
        omega
    · rw [if_neg hindex]
      exact ⟨_, rfl, ⟨h.pieces, h.rest, fun _ => by dsimp only; omega, h.bound⟩, rfl, rfl, fun _ => rfl, .inl rfl⟩
  · rw [if_neg hempty]
    cases hget : s.snapshot.pieces[s.snapshot.index]? with
    | none =>
      have hle := getElem?_eq_none_iff.mp hget
      exact ⟨_, rfl, ⟨h.pieces, h.rest, fun _ => by dsimp only; omega, h.bound⟩, rfl, rfl, fun _ => rfl, .inl rfl⟩
    | some p =>
      obtain ⟨hlt, hp⟩ := List.getElem?_eq_some_iff.mp hget
      have hunread : s.snapshot.unread = p :: s.snapshot.pieces.drop (s.snapshot.index + 1) := by
        rw [PieceTreeSnapshot.unread, List.drop_eq_getElem_cons hlt, hp]
      have hnew : s.value ++ (if s.snapshot.index = 0 then s.snapshot.bom ++ content s.tree.buffers p
          else content s.tree.buffers p) ++
          ((s.snapshot.pieces.drop (s.snapshot.index + 1)).map (content s.tree.buffers)).flatten = text := by
        rw [← hrest, hunread, map_cons, flatten_cons]
        split <;> simp
      refine ⟨_, rfl, ⟨?_, ?_, ?_, ?_⟩, rfl, rfl, id, .inr rfl⟩
      · intro q hq
        refine h.pieces q ?_
        rw [hunread]
        exact mem_cons_of_mem _ hq
      · rw [← hnew]
        simp only [PieceTreeSnapshot.unread]
        rw [if_neg (Nat.succ_ne_zero _), nil_append]
      · intro hfin
        have := hfinished hfin
        omega
      · dsimp only
        omega

/-- Editing and reading in turn: either `null` has come, or there were as many reads as the index says. -/
theorem Unspoiled.run (actions : List SnapshotAction) : ∀ {s : Reading} {d : Doc} {L : Nodes} {text : JsString},
    Unspoiled s text → Holding s.tree d L → d.AcceptsEdits actions → Spares s actions →
    ∃ s', s.run actions = some s' ∧ Unspoiled s' text ∧ s'.snapshot.pieces = s.snapshot.pieces ∧
      (s.finished = true → s'.finished = true) ∧
      (s'.finished = true ∨ s'.snapshot.index = s.snapshot.index + actions.count .read) := by
  induction actions with
  | nil => intro s d L text h _ _ _; exact ⟨s, rfl, h, rfl, id, .inr rfl⟩
  | cons a actions ih =>
    intro s d L text h hholding haccepts hspares
    obtain ⟨ha, haccepts⟩ := haccepts
    obtain ⟨hspare, hspares⟩ := hspares
    cases a with
    | read =>
      obtain ⟨s1, hs1, h1, htree, hpieces, hfin, hindex⟩ := h.read
      obtain ⟨s', hrun, h', hpieces', hfin', hindex'⟩ := ih h1 (htree ▸ hholding) haccepts (hspares s1 hs1)
      refine ⟨s', ?_, h', hpieces'.trans hpieces, hfin' ∘ hfin, ?_⟩
      · rw [Reading.run, hs1]
        exact hrun
      · rcases hindex with hfinished | hindex
        · exact .inl (hfin' hfinished)
        · rw [count_cons_self]
          rcases hindex' with hfinished | hindex'
          · exact .inl hfinished
          · exact .inr (by omega)
    | edit action =>
      have hcases : d.Accepts action ∧ ∀ eol, action ≠ .setEOL eol := by
        cases action with
        | setEOL eol => exact ha.elim
        | _ => exact ⟨ha, fun eol heq => by cases heq⟩
      obtain ⟨T', L', hT', hholding'⟩ := hholding.step hcases.1
      have hs1 : s.step (.edit action) = some { s with tree := T' } := by
        rw [Reading.step, hT']
        rfl
      have h1 : Unspoiled { s with tree := T' } text :=
        h.edit fun p hp => step_content hholding hcases.1 hcases.2 hT' hspare hp (h.pieces p hp)
      obtain ⟨s', hrun, h', hpieces', hfin', hindex'⟩ := ih h1 hholding' haccepts (hspares _ hs1)
      refine ⟨s', ?_, h', hpieces', hfin', ?_⟩
      · rw [Reading.run, hs1]
        exact hrun
      · rw [count_cons_of_ne (by simp)]
        exact hindex'

section Immutable

variable {chunks : List StringBuffer} {eol : EndOfLine} {eolNormalized : Bool} {actions : List Action}
  {later : List SnapshotAction} {T : PieceTreeBase}

/-- A snapshot that no later edit spoils yields the text of the tree it was taken from. -/
theorem snapshot_immutable (hchunks : ChunksOk chunks eol eolNormalized)
    (hactions : (Doc.ofChunks chunks eol).AcceptsAll actions)
    (hT : (PieceTreeBase.create chunks eol eolNormalized).run actions = some T) (bom : JsString)
    (hlater : ((Doc.ofChunks chunks eol).run actions).AcceptsEdits later)
    (hspares : Spares { tree := T, snapshot := T.createSnapshot bom } later) :
    ∃ s, Reading.run { tree := T, snapshot := T.createSnapshot bom } later = some s ∧
      (s.finished = true → s.value = bom ++ T.getLinesRawContent) ∧
      (max 1 T.root.toList.length < later.count .read → s.finished = true) := by
  obtain ⟨T', L, hT', h⟩ := Holding.of_run hchunks hactions
  obtain rfl : T' = T := Option.some.inj (hT'.symm.trans hT)
  have hpieces : (T'.createSnapshot bom).pieces = L.map Prod.snd := by
    rw [← h.inv.holds.items, items, map_map]
    rfl
  have hunspoiled : Unspoiled { tree := T', snapshot := T'.createSnapshot bom } (bom ++ T'.getLinesRawContent) := by
    refine ⟨?_, ?_, fun hfalse => Bool.noConfusion hfalse, Nat.zero_le _⟩
    · intro p hp
      have hp : p ∈ (T'.createSnapshot bom).pieces := hp
      rw [hpieces] at hp
      obtain ⟨i, hi, rfl⟩ := mem_map.mp hp
      exact h.inv.valid i hi
    · rw [h.inv.getLinesRawContent]
      show [] ++ (bom ++ (((T'.createSnapshot bom).pieces.drop 0).map (content T'.buffers)).flatten) = _
      rw [hpieces, drop_zero, map_map]
      rfl
  obtain ⟨s, hrun, hs, hpieces', -, hindex⟩ := hunspoiled.run later h hlater hspares
  refine ⟨s, hrun, hs.value, fun hreads => ?_⟩
  rcases hindex with hfinished | hindex
  · exact hfinished
  · have hbound := hs.bound
    have hlength : (T'.createSnapshot bom).pieces.length = T'.root.toList.length := length_map _
    rw [hpieces', hindex] at hbound
    dsimp only at hbound
    omega

/-- A `\n` that is typed behind a `\r` gets into the snapshot taken in between. -/
theorem snapshot_spoiled : ¬ ∀ (chunks : List StringBuffer) (eol : EndOfLine) (eolNormalized : Bool)
    (actions : List Action) (T : PieceTreeBase) (bom : JsString) (later : List SnapshotAction) (s : Reading),
    ChunksOk chunks eol eolNormalized → (Doc.ofChunks chunks eol).AcceptsAll actions →
    (PieceTreeBase.create chunks eol eolNormalized).run actions = some T →
    ((Doc.ofChunks chunks eol).run actions).AcceptsEdits later →
    Reading.run { tree := T, snapshot := T.createSnapshot bom } later = some s → s.finished = true →
    s.value = bom ++ T.getLinesRawContent := by
  intro h
  have := h [] .lf false [.insert 0 [97, 13] false] _ [] [.edit (.insert 2 [10] false), .read, .read] _ (by decide)
    (by decide) rfl ⟨by decide, trivial, trivial, trivial⟩ rfl rfl
  revert this
  decide

theorem snapshot_immutable_crlf :
    let T := (PieceTreeBase.create [⟨[97, 13], [0, 2]⟩] .lf false)
    let later : List SnapshotAction := [.read, .edit (.insert 2 [10] false), .edit (.delete 0 1), .read]
    ∃ s, Reading.run { tree := T, snapshot := T.createSnapshot [] } later = some s ∧
      (s.finished = true → s.value = [97, 13]) ∧ (1 < 2 → s.finished = true) := by
  exact snapshot_immutable (by decide) (show (Doc.ofChunks _ _).AcceptsAll [] from trivial) rfl []
    ⟨trivial, by decide, by decide, trivial, trivial⟩ (by decide)

end Immutable

end TongjiCode.PieceTree
