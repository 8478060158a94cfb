import OsCourse.Lib.Flood
import OsCourse.Labyrinth.Map
import OsCourse.Labyrinth.File
import OsCourse.Labyrinth.Move
import OsCourse.Labyrinth.Game
import OsCourse.Labyrinth.Process
import OsCourse.Labyrinth.Connect
import OsCourse.Labyrinth.Accept
import OsCourse.Labyrinth.Stores
import OsCourse.Labyrinth.Commute
import OsCourse.Lib.Getopt
import OsCourse.Labyrinth.Args
import OsCourse.Labyrinth.Online
import OsCourse.Lib.Forest
import OsCourse.Pstree.Table
import OsCourse.Pstree.Link
import OsCourse.Pstree.Print
import OsCourse.Pstree.Sort
import OsCourse.Lib.CString
import OsCourse.Pstree.Stat
import OsCourse.Lib.Dict
import OsCourse.Lib.Except
import OsCourse.Lib.Search
import OsCourse.Fle.Load
import OsCourse.Fle.Linker
import OsCourse.Fle.Layout
import OsCourse.Fle.Link
import OsCourse.Fle.Errors
import OsCourse.Fle.Elf
import OsCourse.Fle.Pieces
import OsCourse.Fle.Convert
import OsCourse.Fle.Whole
import OsCourse.Fle.Tables
import OsCourse.Fle.Psabi
import OsCourse.Lib.Record
import OsCourse.Mosaic.Device
import OsCourse.Mosaic.System
import OsCourse.Mosaic.Machine
import OsCourse.Mosaic.Refine
import OsCourse.Mosaic.Dump
import OsCourse.Mosaic.Log
import OsCourse.Mosaic.Nested
import OsCourse.Mosaic.Resume
import OsCourse.Mosaic.Isolation
import OsCourse.Mosaic.Merge
import OsCourse.Mosaic.Check
import OsCourse.Mosaic.Canonical
import OsCourse.Mosaic.Final
import OsCourse.Mosaic.Rewrite
import OsCourse.Lib.Bits
import OsCourse.Rv32.Step
import OsCourse.Rv32.Isa
import OsCourse.Rv32.Decode
import OsCourse.Rv32.Execute
import OsCourse.Rv32.Refine
import OsCourse.Rv32.Trap
import OsCourse.Rv32.Bounds
import OsCourse.Rv32.Run
import OsCourse.Rv32.Atomic
import OsCourse.Rv32.Reserve
import OsCourse.Rv32.Calls
import OsCourse.Rv32.Program
import OsCourse.Rv32.Interrupt
import OsCourse.Rv32.Args
import OsCourse.Lib.Loop
import OsCourse.Hanoi.Recursive
import OsCourse.Hanoi.Puzzle
import OsCourse.Hanoi.Frames
import OsCourse.Hanoi.Stack
import OsCourse.Hanoi.Stages
import OsCourse.Hanoi.Mutual
import OsCourse.OsModel.Os
import OsCourse.OsModel.Schedule
import OsCourse.EasyPieces.Tail
import OsCourse.Lib.FileTree
import OsCourse.EasyPieces.Find
import OsCourse.EasyPieces.ListDirectory
import OsCourse.Minilibc.Stdio
import OsCourse.Minilibc.Malloc
import OsCourse.Lib.Lock
import OsCourse.Mymalloc.Count
import OsCourse.Testkit.Table
import OsCourse.Knight.Search
import OsCourse.Lib.Cells
import OsCourse.Gpt.Layers
import OsCourse.Gpt.Transformer
import OsCourse.Gpt.Kernels
import OsCourse.Gpt.Forward
import OsCourse.Gpt.Refine
import OsCourse.Gpt.Generate
import OsCourse.Mosaic.Turns
import OsCourse.Mosaic.CondVar
import OsCourse.Mosaic.Crew
import OsCourse.Mosaic.Deadlock
import OsCourse.Lib.Fair
import OsCourse.Lib.FifoLock
import OsCourse.Sbi.SpinLock
import OsCourse.Lib.Ring
import OsCourse.Sbi.Fifo
import OsCourse.Sbi.Tlb
