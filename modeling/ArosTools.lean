import ArosTools.Publication.Atomicity
import ArosTools.Publication.Confinement
import ArosTools.Publication.Success
import ArosTools.Romtool.Pkg
import ArosTools.Flash.Safety
import ArosTools.Collect.SetsLayout
import ArosTools.Esp.Verify
import ArosTools.Board.DhcpSafety
import ArosTools.Collect.ArgumentsAgree
import ArosTools.Transpiler.Flatten
import ArosTools.Collect.Engine
import ArosTools.Transpiler.OwnerSelect
import ArosTools.Transpiler.OwnerProvenance
import ArosTools.Toolchain.ArchiveMembers
import ArosTools.Fetch.Confined
import ArosTools.Transpiler.GenmfSpans
import ArosTools.Transpiler.MacroArgsAgree
import ArosTools.Collect.EngineRun
import ArosTools.Toolchain.HeaderReading
import ArosTools.Toolchain.MemberNames
import ArosTools.Toolchain.RoundTrip
import ArosTools.Genmodule.Conf
import ArosTools.Genmodule.Sections
import ArosTools.Genmodule.ClientViews
import ArosTools.Genmodule.Directives
import ArosTools.Board.SdMediaStage
import ArosTools.Transpiler.MakeIsolation
import ArosTools.Transpiler.MakeWords
import ArosTools.Board.SdDiskSafety
import ArosTools.Transpiler.MetaGreedy
import ArosTools.Cache.CompilerLoad
import ArosTools.Collect.LibraryVersions
import ArosTools.Collect.ResponseFile
import ArosTools.Collect.Resupply
import ArosTools.Elf.Bounds
import ArosTools.Esp.Image
import ArosTools.Publication.PathOverlap
import ArosTools.Publication.SourceLinks
import ArosTools.Romtool.PkgLayout
import ArosTools.Transpiler.VarHistory
import ArosTools.Transpiler.VarBranches
import ArosTools.Toolchain.PrefixScan
import ArosTools.Transpiler.TargetCycles
import ArosTools.Verify.Coverage
import ArosTools.Board.PartitionStream
import ArosTools.Publication.JournalTotal
import ArosTools.Board.DiskFingerprint
import ArosTools.Toolchain.PayloadKeys
import ArosTools.Toolchain.PackageLayout
import ArosTools.Elf.Arm
import ArosTools.Toolchain.PaxRecords
import ArosTools.Fetch.PatchKey
import ArosTools.Toolchain.Timestamp
import ArosTools.Transpiler.JoinedLines
import ArosTools.Transpiler.MakeNesting
import ArosTools.Transpiler.ConditionDepth
import ArosTools.Cache.CompilerConfiguration
