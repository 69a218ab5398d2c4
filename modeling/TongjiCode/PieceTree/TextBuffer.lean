import TongjiCode.PieceTree.Create

/-!
# `PieceTreeTextBuffer`

A text buffer is a piece tree with its byte order mark and three flags that say what characters the text may
contain.
-/

namespace TongjiCode

namespace JsString

/-! ## Character classes -/

def inRanges (ranges : List (UInt16 × UInt16)) (c : UInt16) : Bool := ranges.any fun r => r.1 ≤ c && c ≤ r.2

def rtlRanges : List (UInt16 × UInt16) :=
  [(0x05BE, 0x05BE), (0x05C0, 0x05C0), (0x05C3, 0x05C3), (0x05C6, 0x05C6), (0x05D0, 0x05F4), (0x0608, 0x0608),
    (0x060B, 0x060B), (0x060D, 0x060D), (0x061B, 0x064A), (0x066D, 0x066F), (0x0671, 0x06D5), (0x06E5, 0x06E5),
    (0x06E6, 0x06E6), (0x06EE, 0x06EE), (0x06EF, 0x06EF), (0x06FA, 0x0710), (0x0712, 0x072F), (0x074D, 0x07A5),
    (0x07B1, 0x07EA), (0x07F4, 0x07F4), (0x07F5, 0x07F5), (0x07FA, 0x07FA), (0x07FE, 0x0815), (0x081A, 0x081A),
    (0x0824, 0x0824), (0x0828, 0x0828), (0x0830, 0x0858), (0x085E, 0x088E), (0x08A0, 0x08C9), (0x200F, 0x200F),
    (0xFB1D, 0xFB1D), (0xFB1F, 0xFB28), (0xFB2A, 0xFD3D), (0xFD50, 0xFDC7), (0xFDF0, 0xFDFC), (0xFE70, 0xFEFC)]

/-- The low surrogates behind a high one. -/
def rtlPairs : List (UInt16 × List (UInt16 × UInt16)) :=
  [(0xD802, [(0xDC00, 0xDD1B), (0xDD20, 0xDE00), (0xDE10, 0xDE35), (0xDE40, 0xDEE4), (0xDEEB, 0xDF35), (0xDF40, 0xDFFF)]),
    (0xD803, [(0xDC00, 0xDD23), (0xDE80, 0xDEA9), (0xDEAD, 0xDF45), (0xDF51, 0xDF81), (0xDF86, 0xDFF6)]),
    (0xD83A, [(0xDC00, 0xDCCF), (0xDD00, 0xDD43), (0xDD4B, 0xDFFF)]),
    (0xD83B, [(0xDC00, 0xDEBB)])]

def containsRTL : JsString → Bool
  | [] => false
  | [c] => inRanges rtlRanges c
  | c :: d :: t =>
    inRanges rtlRanges c || rtlPairs.any (fun pair => c = pair.1 && inRanges pair.2 d) || containsRTL (d :: t)

def containsUnusualLineTerminators (str : JsString) : Bool := str.any fun c => c = 0x2028 || c = 0x2029

def utf8Bom : UInt16 := 0xFEFF

def startsWithUTF8BOM (str : JsString) : Bool := str.head? = some utf8Bom

end JsString

namespace PieceTree

structure PieceTreeTextBuffer where
  pieceTree : PieceTreeBase
  bom : JsString
  mightContainRTL : Bool
  mightContainUnusualLineTerminators : Bool
  mightContainNonBasicASCII : Bool
  deriving Repr, DecidableEq

namespace PieceTreeTextBuffer

variable (buffer : PieceTreeTextBuffer)

def text : JsString := buffer.pieceTree.getLinesRawContent

def getEOL : EndOfLine := buffer.pieceTree.eol

def getLineCount : Nat := buffer.pieceTree.lineCnt

end PieceTreeTextBuffer

end PieceTree

end TongjiCode
