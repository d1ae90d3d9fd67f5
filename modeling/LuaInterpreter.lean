import LuaInterpreter.Main
import LuaInterpreter.Proofs.TableMap
import LuaInterpreter.Proofs.TableText
import LuaInterpreter.Proofs.Bitwise
import LuaInterpreter.Proofs.Verbosity
import LuaInterpreter.Proofs.CallerScope
import LuaInterpreter.Proofs.HostCopy
import LuaInterpreter.Proofs.ChunkName
import LuaInterpreter.Proofs.TrailingDashes
import LuaInterpreter.Proofs.Jump
import LuaInterpreter.Proofs.Varargs
import LuaInterpreter.Proofs.Building.Statements
import LuaInterpreter.Proofs.MetatableSlot
import LuaInterpreter.Proofs.InterruptedSort
import LuaInterpreter.Proofs.IndexChain
import LuaInterpreter.Proofs.IpairsLoop
import LuaInterpreter.Proofs.IntegerText
import LuaInterpreter.Proofs.Joining
import LuaInterpreter.Proofs.ChunkPieces
import LuaInterpreter.Proofs.DateTable
import LuaInterpreter.Proofs.DefaultInput
import LuaInterpreter.Proofs.LineIteration
import LuaInterpreter.Proofs.Equality
import LuaInterpreter.Proofs.PromptLines
import LuaInterpreter.Proofs.Signature
import LuaInterpreter.Proofs.NumeralWindow
