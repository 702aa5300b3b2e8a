import RasterScript.CommandLine.Folder
import RasterScript.Dialect.Document
import RasterScript.Main
import RasterScript.Proofs.Binding.Operations
import RasterScript.Proofs.Binding.Scoping
import RasterScript.Proofs.Compilation.Arrangement
import RasterScript.Proofs.Compilation.Dialects
import RasterScript.Proofs.Compilation.Finish
import RasterScript.Proofs.Compilation.Places
import RasterScript.Proofs.Compilation.Warnings
import RasterScript.Proofs.Number.Order
import RasterScript.Proofs.Script.FinalLine
import RasterScript.Proofs.Script.FirstFault
import RasterScript.Proofs.Session.Causes
import RasterScript.Proofs.Session.Coverage
import RasterScript.Proofs.Session.Reads
import RasterScript.Proofs.Transform.Axes
import RasterScript.Proofs.Session.DefaultBounds
import RasterScript.Proofs.Json.Reading
import RasterScript.Proofs.Number.Spelling
import RasterScript.Proofs.Number.Shortest
import RasterScript.Proofs.Json.Numbers
import RasterScript.Proofs.Raster.File
import RasterScript.Proofs.Session.Progress
import RasterScript.Proofs.Text.Positions
import RasterScript.Proofs.Token.Breaks
import RasterScript.Proofs.Token.Lines
import RasterScript.Proofs.Token.Spacing
import RasterScript.Proofs.Builtin.OrderStatistics
import RasterScript.Proofs.Compilation.Listing
