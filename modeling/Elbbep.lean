import Elbbep.AnnouncedRecords
import Elbbep.BaseCodepoints
import Elbbep.BlockReversal
import Elbbep.BoundaryNeutrals
import Elbbep.BranchEncoding
import Elbbep.ByteMemory
import Elbbep.ChecksumBursts
import Elbbep.ComposedFontRoom
import Elbbep.ComposedFonts
import Elbbep.ComposedMembers
import Elbbep.CodepointRequests
import Elbbep.CompressedFonts
import Elbbep.ContextualForms
import Elbbep.DigitRuns
import Elbbep.DrawnText
import Elbbep.ExposedRunes
import Elbbep.FailingPrograms
import Elbbep.FeedbackRegister
import Elbbep.FindSystemFonts
import Elbbep.FinishedBitmaps
import Elbbep.FixIjam
import Elbbep.Folders
import Elbbep.FontCompose
import Elbbep.FontGen
import Elbbep.FontGenLayout
import Elbbep.FontRoundTrip
import Elbbep.GeneratedTables
import Elbbep.Generator
import Elbbep.GeneratorHistory
import Elbbep.GeneratorOutput
import Elbbep.GlyphBitmaps
import Elbbep.GlyphPoints
import Elbbep.HashChains
import Elbbep.HookSessions
import Elbbep.InPlaceDecoding
import Elbbep.JumpTable
import Elbbep.LanguagePacks
import Elbbep.LargestTable
import Elbbep.LigatureTables
import Elbbep.LineReordering
import Elbbep.MarkTransparency
import Elbbep.MaximalRuns
import Elbbep.MergedFonts
import Elbbep.MisreadChains
import Elbbep.NonJoiningLetters
import Elbbep.PackLut
import Elbbep.PackLutSemantics
import Elbbep.ParagraphAlignment
import Elbbep.Patch
import Elbbep.PatchTools
import Elbbep.PatchedImage
import Elbbep.PatternReads
import Elbbep.PfoLayout
import Elbbep.PfoMerge
import Elbbep.PfoReading
import Elbbep.PfoWriting
import Elbbep.PythonStruct
import Elbbep.RecentredMarks
import Elbbep.RenderedLine
import Elbbep.ResourcePack
import Elbbep.ResourceRoundTrip
import Elbbep.Rtl
import Elbbep.RtlInvolution
import Elbbep.RtlRanges
import Elbbep.RtlReversal
import Elbbep.RtlRunes
import Elbbep.RtlStretches
import Elbbep.ShapeIdempotence
import Elbbep.ShapePass
import Elbbep.ShapeRoundTrip
import Elbbep.ShapedText
import Elbbep.ShaperTables
import Elbbep.SupplementaryRunes
import Elbbep.TableAgreement
import Elbbep.TerminatorSafety
import Elbbep.TextHooks
import Elbbep.TextInMemory
import Elbbep.TextShaper
import Elbbep.ThickenedMarks
import Elbbep.ThumbBranch
import Elbbep.UnshapeSafety
import Elbbep.UnshapedText
import Elbbep.Utf8
import Elbbep.Utf8Encoding
import Elbbep.VersionTwoFonts
import Elbbep.WritableFonts
