import TongjiCode.PieceTree.Create
import TongjiCode.PieceTree.Delete
import TongjiCode.PieceTree.Reads

/-!
# Piece tree: runs

A run creates a tree and then edits it, changes its line breaks and reads it in any order.  The abstract
document is a string with its line break (`Doc`); a run of the tree refines the same run of the document
(`run_refines`), and every state of a run is represented as it should be (`run_represented`).
-/

open List

namespace TongjiCode.PieceTree

open JsString

/-! ## The abstract document -/

/-- The calls of a run. -/
inductive Action where
  | insert (offset : Nat) (value : JsString) (eolNormalized : Bool)
  | delete (offset cnt : Nat)
  | setEOL (eol : EndOfLine)
  | getLineContent (lineNumber : Nat)
  | getLineRawContent (lineNumber endOffset : Nat)
  | getValueInRange (range : Range) (eol : Option EndOfLine)
  | getLineCharCode (lineNumber index : Nat)
  | getCharCode (offset : Nat)
  deriving Repr, DecidableEq

structure Doc where
  text : JsString
  eol : EndOfLine
  deriving Repr, DecidableEq

def Doc.apply (d : Doc) : Action → Doc
  | .insert offset value _ => { d with text := splice d.text offset 0 value }
  | .delete offset cnt => { d with text := splice d.text offset cnt [] }
  | .setEOL eol => ⟨replaceEol eol.text d.text, eol⟩
  | _ => d

/-- The arguments are in range, and the flag of an insertion is set only for values with the line break of
the document. -/
def Doc.Accepts (d : Doc) : Action → Prop
  | .insert offset value eolNormalized =>
    value ≠ [] ∧ offset ≤ d.text.length ∧ (eolNormalized = true → UsesOnly d.eol value)
  | .delete offset cnt => offset + cnt ≤ d.text.length
  | _ => True

instance (d : Doc) : ∀ a, Decidable (d.Accepts a)
  | .insert _ _ _ => inferInstanceAs (Decidable (_ ∧ _))
  | .delete _ _ => inferInstanceAs (Decidable (_ ≤ _))
  | .setEOL _ | .getLineContent _ | .getLineRawContent _ _ | .getValueInRange _ _ | .getLineCharCode _ _
  | .getCharCode _ => inferInstanceAs (Decidable True)

def Doc.AcceptsAll (d : Doc) : List Action → Prop
  | [] => True
  | a :: actions => d.Accepts a ∧ (d.apply a).AcceptsAll actions

instance Doc.decidableAcceptsAll : ∀ (d : Doc) actions, Decidable (d.AcceptsAll actions)
  | _, [] => inferInstanceAs (Decidable True)
  | d, a :: actions =>
    have := Doc.decidableAcceptsAll (d.apply a) actions
    inferInstanceAs (Decidable (_ ∧ _))

def Doc.run (d : Doc) (actions : List Action) : Doc := actions.foldl Doc.apply d

namespace PieceTreeBase

/-- One call; `none` where an edit throws.  A read that throws leaves the tree as it is. -/
def step (T : PieceTreeBase) : Action → Option PieceTreeBase
  | .insert offset value eolNormalized => T.insert offset value eolNormalized
  | .delete offset cnt => T.delete offset cnt
  | .setEOL eol => some (T.setEOL eol)
  | .getLineContent lineNumber => some (T.getLineContent lineNumber).1
  | .getLineRawContent lineNumber endOffset => some (T.getLineRawContent lineNumber endOffset).1
  | .getValueInRange _ _ => some T
  | .getLineCharCode _ _ => some T
  | .getCharCode offset => some (T.getCharCode offset).1

def run (T : PieceTreeBase) : List Action → Option PieceTreeBase
  | [] => some T
  | a :: actions => (T.step a).bind fun T => T.run actions

end PieceTreeBase

/-! ## Reading changes the cache only -/

/-- The tree holds the document. -/
structure Holding (T : PieceTreeBase) (d : Doc) (L : Nodes) : Prop where
  inv : Inv T L
  text : docText T.buffers L = d.text
  eol : T.eol = d.eol

section Reads

variable {T : PieceTreeBase} {L : Nodes}

theorem Inv.withCache (h : Inv T L) {cache : Option CacheEntry} (hcache : CacheOk L cache) (line : Nat × JsString) :
    Inv { T with searchCache := cache, lastVisitedLine := line } L :=
  ⟨⟨h.toCore.withCache cache line T.lineCnt T.length, h.positive, h.joined⟩, hcache, h.length, h.lineCnt⟩

section StartOf

variable {c : Color} {l r : Tree TreeNode} {v : TreeNode} {id o : Nat}

theorem startOf_left (h : startOf (items l) id = some o) : startOf (items (.node c l v r)) id = some o := by
  rw [items_node, startOf_append, h]
  rfl

theorem startOf_here (hnodup : ((items (.node c l v r)).map Prod.fst).Nodup) :
    startOf (items (.node c l v r)) v.id = some (totalLength (items l)) := by
  rw [items_node, map_append, map_cons, nodup_append] at hnodup
  rw [items_node]
  exact startOf_middle fun hmem => hnodup.2.2 v.id hmem v.id mem_cons_self rfl

theorem startOf_right (hnodup : ((items (.node c l v r)).map Prod.fst).Nodup) (h : startOf (items r) id = some o) :
    startOf (items (.node c l v r)) id = some (totalLength (items l) + v.piece.length + o) := by
  rw [items_node, map_append, map_cons, nodup_append, nodup_cons] at hnodup
  have hmem : id ∈ (items r).map Prod.fst := by
    by_contra hnot
    rw [startOf_eq_none.mpr hnot] at h
    cases h
  have hnone : startOf (items l) id = none :=
    startOf_eq_none.mpr fun hmem' => hnodup.2.2 _ hmem' _ (mem_cons_of_mem _ hmem) rfl
  have hne : v.item.1 ≠ id := by
    intro heq
    rw [← heq] at hmem
    exact hnodup.2.1.1 hmem
  rw [items_node, startOf_append, hnone, Option.none_or, startOf, if_neg hne, h]
  simp only [Option.map_some, Option.some.injEq, TreeNode.item]
  omega

theorem node_parts (hgood : pieceAugment.Good (.node c l v r)) (hnodup : ((items (.node c l v r)).map Prod.fst).Nodup) :
    pieceAugment.Good l ∧ pieceAugment.Good r ∧ ((items l).map Prod.fst).Nodup ∧ ((items r).map Prod.fst).Nodup ∧
      v.sizeLeft = totalLength (items l) := by
  obtain ⟨hv, hgl, hgr⟩ := good_node.mp hgood
  rw [items_node, map_append, map_cons, nodup_append, nodup_cons] at hnodup
  refine ⟨hgl, hgr, hnodup.1, hnodup.2.1.2, ?_⟩
  rw [← total_fst, ← hv]
  rfl

end StartOf

theorem lineStartLoop_entry (bs : List StringBuffer) (n : Int) (endOffset : Nat) (t : Tree TreeNode) :
    ∀ (lineNumber : Int) (base : Nat), pieceAugment.Good t → ((items t).map Prod.fst).Nodup → ∀ value entry,
      PieceTreeBase.lineStartLoop bs n endOffset t lineNumber base = .whole value entry →
      ∃ o, startOf (items t) entry.node = some o ∧ entry.nodeStartOffset = base + o := by
  induction t with
  | nil => intro lineNumber base _ _ value entry h; cases h
  | node c l v r ihl ihr =>
    intro lineNumber base hgood hnodup value entry h
    obtain ⟨hgl, hgr, hnl, hnr, hsize⟩ := node_parts hgood hnodup
    unfold PieceTreeBase.lineStartLoop at h
    split at h
    · obtain ⟨o, ho, hstart⟩ := ihl lineNumber base hgl hnl value entry h
      exact ⟨o, startOf_left ho, hstart⟩
    · split at h
      · simp only [PieceTreeBase.LineStart.whole.injEq] at h
        obtain ⟨-, rfl⟩ := h
        refine ⟨totalLength (items l), startOf_here hnodup, ?_⟩
        dsimp only
        omega
      · split at h
        · cases h
        · have hbase : (base : Int) + (v.sizeLeft + v.piece.length) =
              ((base + (totalLength (items l) + v.piece.length) : Nat) : Int) := by omega
          rw [hbase] at h
          obtain ⟨o, ho, hstart⟩ := ihr _ _ hgr hnr value entry h
          exact ⟨_, startOf_right hnodup ho, by omega⟩

/-- Whatever the offset, `nodeAt` finds a node with its start, or none. -/
theorem nodeAtLoop_start (t : Tree TreeNode) : ∀ (offset : Int) (base : Nat), pieceAugment.Good t →
    ((items t).map Prod.fst).Nodup → ∀ pos, nodeAtLoop t offset base = some pos →
      ∃ o, startOf (items t) pos.node = some o ∧ pos.nodeStartOffset = base + o := by
  induction t with
  | nil => intro offset base _ _ pos h; cases h
  | node c l v r ihl ihr =>
    intro offset base hgood hnodup pos h
    obtain ⟨hgl, hgr, hnl, hnr, hsize⟩ := node_parts hgood hnodup
    rw [nodeAtLoop] at h
    split at h
    · obtain ⟨o, ho, hstart⟩ := ihl offset base hgl hnl pos h
      exact ⟨o, startOf_left ho, hstart⟩
    · split at h
      · obtain rfl := Option.some.inj h
        refine ⟨totalLength (items l), startOf_here hnodup, ?_⟩
        dsimp only
        omega
      · have hbase : (base : Int) + (v.sizeLeft + v.piece.length) =
            ((base + (totalLength (items l) + v.piece.length) : Nat) : Int) := by omega
        rw [hbase] at h
        obtain ⟨o, ho, hstart⟩ := ihr _ _ hgr hnr pos h
        exact ⟨_, startOf_right hnodup ho, by omega⟩

theorem getLineRawContent_inv (h : Inv T L) (lineNumber endOffset : Nat) : ∃ cache,
    (T.getLineRawContent lineNumber endOffset).1 = { T with searchCache := cache } ∧ CacheOk L cache := by
  have hsame : ∃ cache, T = { T with searchCache := cache } ∧ CacheOk L cache := ⟨T.searchCache, rfl, h.cache⟩
  unfold PieceTreeBase.getLineRawContent
  dsimp only
  split
  · split <;> exact hsame
  · split
    · next value entry hloop =>
      refine ⟨some entry, rfl, ?_⟩
      intro entry' hentry
      obtain rfl := Option.some.inj hentry
      have hitems := h.holds.items
      obtain ⟨o, ho, hstart⟩ := lineStartLoop_entry _ _ _ T.root lineNumber 0 h.holds.ok.good
        (by rw [hitems]; exact h.holds.nodup) value entry hloop
      rw [hitems] at ho
      rw [ho, hstart, Nat.zero_add]
    · exact hsame
    · exact hsame

theorem getLineContent_inv (h : Inv T L) (lineNumber : Nat) : ∃ cache line,
    (T.getLineContent lineNumber).1 = { T with searchCache := cache, lastVisitedLine := line } ∧ CacheOk L cache := by
  have hraw : ∀ endOffset, ∃ cache, (T.getLineRawContent lineNumber endOffset).1 = { T with searchCache := cache } ∧
      CacheOk L cache := fun endOffset => getLineRawContent_inv h lineNumber endOffset
  unfold PieceTreeBase.getLineContent
  by_cases hlast : T.lastVisitedLine.1 = lineNumber
  · rw [if_pos hlast]
    exact ⟨T.searchCache, T.lastVisitedLine, rfl, h.cache⟩
  · rw [if_neg hlast]
    dsimp only
    split
    · obtain ⟨cache, heq, hcache⟩ := hraw 0
      exact ⟨cache, _, by rw [heq], hcache⟩
    · split
      · obtain ⟨cache, heq, hcache⟩ := hraw T.eol.text.length
        exact ⟨cache, _, by rw [heq], hcache⟩
      · obtain ⟨cache, heq, hcache⟩ := hraw 0
        exact ⟨cache, _, by dsimp only; rw [heq], hcache⟩

theorem nodeAt_inv (h : Inv T L) (offset : Nat) : ∃ cache, (T.nodeAt offset).1 = { T with searchCache := cache } ∧
    CacheOk L cache := by
  have hsame : ∃ cache, T = { T with searchCache := cache } ∧ CacheOk L cache := ⟨T.searchCache, rfl, h.cache⟩
  unfold PieceTreeBase.nodeAt
  split
  · exact hsame
  · split
    · next pos hloop =>
      refine ⟨_, rfl, ?_⟩
      intro entry hentry
      obtain rfl := Option.some.inj hentry
      have hitems := h.holds.items
      obtain ⟨o, ho, hstart⟩ := nodeAtLoop_start T.root offset 0 h.holds.ok.good (by rw [hitems]; exact h.holds.nodup)
        pos hloop
      rw [hitems] at ho
      rw [ho, hstart, Nat.zero_add]
    · exact hsame

end Reads

/-! ## One call, and a run -/

theorem Holding.withCache {T : PieceTreeBase} {d : Doc} {L : Nodes} (h : Holding T d L) {cache : Option CacheEntry}
    (hcache : CacheOk L cache) (line : Nat × JsString) :
    Holding { T with searchCache := cache, lastVisitedLine := line } d L :=
  ⟨h.inv.withCache hcache line, h.text, h.eol⟩

theorem Holding.step {T : PieceTreeBase} {d : Doc} {L : Nodes} (h : Holding T d L) {a : Action} (ha : d.Accepts a) :
    ∃ T' L', T.step a = some T' ∧ Holding T' (d.apply a) L' := by
  cases a with
  | insert offset value eolNormalized =>
    obtain ⟨hne, hoffset, huses⟩ := ha
    rw [← h.text] at hoffset
    rw [← h.eol] at huses
    obtain ⟨T', L', hT', hinv, htext, heol, -⟩ := insert_spec h.inv hoffset hne huses
    refine ⟨T', L', hT', hinv, ?_, heol.trans h.eol⟩
    rw [htext, h.text]
    rfl
  | delete offset cnt =>
    have hle : offset + cnt ≤ d.text.length := ha
    rw [← h.text] at hle
    obtain ⟨T', L', hT', hinv, htext, heol, -⟩ := delete_spec h.inv hle
    refine ⟨T', L', hT', hinv, ?_, heol.trans h.eol⟩
    rw [htext, h.text]
    rfl
  | setEOL eol =>
    obtain ⟨L', hinv, htext, heol, -⟩ := setEOL_spec h.inv eol
    refine ⟨T.setEOL eol, L', rfl, hinv, ?_, heol⟩
    rw [htext, h.text]
    rfl
  | getLineContent lineNumber =>
    obtain ⟨cache, line, heq, hcache⟩ := getLineContent_inv h.inv lineNumber
    exact ⟨_, L, congrArg some heq, h.withCache hcache line⟩
  | getLineRawContent lineNumber endOffset =>
    obtain ⟨cache, heq, hcache⟩ := getLineRawContent_inv h.inv lineNumber endOffset
    exact ⟨_, L, congrArg some heq, h.withCache hcache T.lastVisitedLine⟩
  | getValueInRange range eol => exact ⟨T, L, rfl, h⟩
  | getLineCharCode lineNumber index => exact ⟨T, L, rfl, h⟩
  | getCharCode offset =>
    obtain ⟨cache, heq, hcache⟩ := nodeAt_inv h.inv offset
    exact ⟨_, L, congrArg some heq, h.withCache hcache T.lastVisitedLine⟩

theorem Holding.run (actions : List Action) : ∀ {T : PieceTreeBase} {d : Doc} {L : Nodes}, Holding T d L →
    d.AcceptsAll actions → ∃ T' L', T.run actions = some T' ∧ Holding T' (d.run actions) L' := by
  induction actions with
  | nil => intro T d L h _; exact ⟨T, L, rfl, h⟩
  | cons a actions ih =>
    intro T d L h hall
    obtain ⟨T', L', hT', h'⟩ := h.step hall.1
    obtain ⟨T'', L'', hT'', h''⟩ := ih h' hall.2
    refine ⟨T'', L'', ?_, h''⟩
    rw [PieceTreeBase.run, hT']
    exact hT''

/-- The document that the chunks of an initial text make. -/
def Doc.ofChunks (chunks : List StringBuffer) (eol : EndOfLine) : Doc := ⟨(chunks.map StringBuffer.buffer).flatten, eol⟩

section Runs

variable {chunks : List StringBuffer} {eol : EndOfLine} {eolNormalized : Bool} {actions : List Action}

theorem Holding.of_run (hchunks : ChunksOk chunks eol eolNormalized) (hactions : (Doc.ofChunks chunks eol).AcceptsAll actions) :
    ∃ T L, (PieceTreeBase.create chunks eol eolNormalized).run actions = some T ∧
      Holding T ((Doc.ofChunks chunks eol).run actions) L := by
  obtain ⟨L, hinv, htext, heol, -⟩ := create_spec hchunks
  exact Holding.run actions ⟨hinv, htext, heol⟩ hactions

/-- A run of the tree does what the same run of the plain string does, whatever is read on the way. -/
theorem run_refines (hchunks : ChunksOk chunks eol eolNormalized)
    (hactions : (Doc.ofChunks chunks eol).AcceptsAll actions) :
    ∃ T, (PieceTreeBase.create chunks eol eolNormalized).run actions = some T ∧
      T.getLinesRawContent = ((Doc.ofChunks chunks eol).run actions).text ∧
      T.length = ((Doc.ofChunks chunks eol).run actions).text.length ∧
      T.lineCnt = 1 + eolCount ((Doc.ofChunks chunks eol).run actions).text := by
  obtain ⟨T, L, hT, h⟩ := Holding.of_run hchunks hactions
  refine ⟨T, hT, ?_, ?_, ?_⟩
  · rw [h.inv.getLinesRawContent, h.text]
  · rw [h.inv.length, h.text]
  · rw [h.inv.lineCnt, h.text]

end Runs

/-- A text that comes in two chunks, with a `\n` put behind the `\r` of the first one. -/
theorem run_refines_crlf :
    let chunks : List StringBuffer := [⟨[97, 13], [0, 2]⟩, ⟨[98], [0]⟩]
    let actions : List Action := [.getLineContent 2, .insert 2 [10] false, .getCharCode 1, .delete 0 1]
    ∃ T, (PieceTreeBase.create chunks .lf false).run actions = some T ∧ T.getLinesRawContent = [13, 10, 98] ∧
      T.length = 3 ∧ T.lineCnt = 2 :=
  run_refines (by decide) (by decide)

/-! ## The representation -/

/-- Every node counts what its left subtree holds. -/
def LeftCounts : Tree TreeNode → Prop
  | .nil => True
  | .node _ l v r =>
    v.sizeLeft = (l.toList.map fun n => (n.piece.length : Int)).sum ∧
      v.lfLeft = (l.toList.map fun n => (n.piece.lineFeedCnt : Int)).sum ∧ LeftCounts l ∧ LeftCounts r

/-- The representation between two calls. -/
structure Represented (T : PieceTreeBase) : Prop where
  redBlack : RedBlack T.root
  counts : LeftCounts T.root
  pieces : ∀ n ∈ T.root.toList, n.piece.length = (content T.buffers n.piece).length ∧
    n.piece.lineFeedCnt = eolCount (content T.buffers n.piece)
  crlf : T.shouldCheckCRLF = true →
    (T.root.toList.map fun n => content T.buffers n.piece).IsChain fun a b => ¬ Junction a b

theorem leftCounts_of_good (t : Tree TreeNode) (h : pieceAugment.Good t) : LeftCounts t := by
  induction t with
  | nil => trivial
  | node c l v r ihl ihr =>
    obtain ⟨hv, hl, hr⟩ := good_node.mp h
    have hsum : ∀ nodes : List TreeNode, total (nodes.map TreeNode.item) =
        ((nodes.map fun n => (n.piece.length : Int)).sum, (nodes.map fun n => (n.piece.lineFeedCnt : Int)).sum) := by
      intro nodes
      induction nodes with
      | nil => rfl
      | cons n nodes ih =>
        rw [map_cons, total_cons, ih]
        rfl
    rw [items, hsum, TreeNode.metadata, Prod.mk.injEq] at hv
    exact ⟨hv.1, hv.2, ihl hl, ihr hr⟩

theorem isChain_of_joined (ts : List JsString) (h : Joined none ts) : ts.IsChain fun a b => ¬ Junction a b := by
  induction ts with
  | nil => exact .nil
  | cons t ts ih =>
    obtain ⟨hhead, htail⟩ := joined_cons_iff.mp h
    cases ts with
    | nil => exact .singleton t
    | cons u ts =>
      refine isChain_cons_cons.mpr ⟨?_, ih htail⟩
      intro hjunction
      refine hhead ⟨hjunction.1, ?_⟩
      rw [flatten_cons, head?_append, hjunction.2]
      rfl

theorem Inv.represented {T : PieceTreeBase} {L : Nodes} (h : Inv T L) : Represented T := by
  have hitems := h.holds.items
  have hmem : ∀ n ∈ T.root.toList, n.item ∈ L := by
    intro n hn
    rw [← hitems]
    exact mem_map_of_mem hn
  refine ⟨h.holds.ok.redBlack, leftCounts_of_good _ h.holds.ok.good, ?_, ?_⟩
  · intro n hn
    have hvalid := h.valid _ (hmem n hn)
    exact ⟨hvalid.length.symm, hvalid.lineFeedCnt (h.positive _ (hmem n hn))⟩
  · intro _
    refine isChain_of_joined _ ?_
    have hjoined := h.joined
    rw [← hitems, texts, items, map_map] at hjoined
    exact hjoined

section Runs

variable {chunks : List StringBuffer} {eol : EndOfLine} {eolNormalized : Bool} {actions : List Action}

/-- Every state of a run is represented as it should be. -/
theorem run_represented (hchunks : ChunksOk chunks eol eolNormalized)
    (hactions : (Doc.ofChunks chunks eol).AcceptsAll actions) :
    ∃ T, (PieceTreeBase.create chunks eol eolNormalized).run actions = some T ∧ Represented T := by
  obtain ⟨T, L, hT, h⟩ := Holding.of_run hchunks hactions
  exact ⟨T, hT, h.inv.represented⟩

theorem run_represented_crlf :
    ∃ T, (PieceTreeBase.create [⟨[97, 13], [0, 2]⟩, ⟨[98], [0]⟩] .lf false).run
      [.insert 2 [10] false, .setEOL .crlf, .delete 0 1] = some T ∧ Represented T :=
  run_represented (by decide) (by decide)

end Runs

end TongjiCode.PieceTree
