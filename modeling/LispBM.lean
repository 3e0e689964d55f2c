import LispBM.ConsHeap
import LispBM.EvalCps
import LispBM.EvalCpsRefine
import LispBM.Frames
import LispBM.OutOfMemory
import LispBM.Reference
import LispBM.Contexts
import LispBM.ConstHeap
import LispBM.DefragMem
import LispBM.Schrift
import LispBM.Compression
import LispBM.CodeTable
import LispBM.Encoder
import LispBM.RoundTrip
import LispBM.FontBounds
import LispBM.LetLoop
import LispBM.DefragAlloc
import LispBM.CompressBounds
import LispBM.TtfPrint
import LispBM.CmapFormat4
import LispBM.Outline
import LispBM.OutlineDecode
import LispBM.Tesselate
import LispBM.GlobalEnv
import LispBM.Isolation
import LispBM.ProgramRun
import LispBM.Utf8
import LispBM.EcEval
import LispBM.EcEvalRefine
import LispBM.DefragDestroy
import LispBM.DefragLayout
import LispBM.Kerning
import LispBM.Metrics
