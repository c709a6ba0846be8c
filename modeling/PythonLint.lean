import PythonLint.Main
import PythonLint.Proofs.Ast.Divisions
import PythonLint.Proofs.BlankReports
import PythonLint.Proofs.ConfigSearch
import PythonLint.Proofs.ContextLines
import PythonLint.Proofs.Displays
import PythonLint.Proofs.EncodingHeader
import PythonLint.Proofs.FileCollection
import PythonLint.Proofs.FutureHeader
import PythonLint.Proofs.Ignore.Compilation
import PythonLint.Proofs.Ignore.Delivery
import PythonLint.Proofs.Ignore.ErrorOrder
import PythonLint.Proofs.Ignore.Relayout
import PythonLint.Proofs.LineNumbers
import PythonLint.Proofs.LogFile
import PythonLint.Proofs.OpenBlocks
import PythonLint.Proofs.PrintMask.MaskedBytes
import PythonLint.Proofs.TreeShape
